import Nbf.Library.Table
import Nbf.Crypto.Identity

/-! Cells, fragments and onion layers (`cell.rs`). -/

set_option autoImplicit false

namespace Nbf.Net

open Nbf.Library Nbf.Crypto

def cellLen : Nat := 1280
/-- cid (4), cmd (1), flags (1), payload length (2). -/
def cellHdr : Nat := 8
def cellData : Nat := cellLen - cellHdr
def msgMax : Nat := 1024

inductive NetError where
  | badLength (len : Nat)
  | badCmd (cmd : UInt8)
  | tooShort
  | timeout
  | noSession
  | crypto (err : CryptoError)
  | io (reason : String)
  deriving DecidableEq, Repr

inductive Cmd where
  | create | created | destroy | relay | padding
  deriving DecidableEq, Repr

def Cmd.toU8 : Cmd → UInt8
  | create => 1
  | created => 2
  | destroy => 3
  | relay => 4
  | padding => 5

def Cmd.tryFrom (v : UInt8) : Checked NetError Cmd :=
  if v = 1 then .ok create else if v = 2 then .ok created else if v = 3 then .ok destroy
  else if v = 4 then .ok relay else if v = 5 then .ok padding else .error (.badCmd v)

inductive RCmd where
  | echo | data | drop
  deriving DecidableEq, Repr

def RCmd.toU8 : RCmd → UInt8
  | echo => 1
  | data => 2
  | drop => 3

def RCmd.tryFrom (v : UInt8) : Checked NetError RCmd :=
  if v = 1 then .ok echo else if v = 2 then .ok data else if v = 3 then .ok drop else .error (.badCmd v)

@[simp] theorem Cmd.tryFrom_toU8 (cmd : Cmd) : tryFrom cmd.toU8 = .ok cmd := by cases cmd <;> rfl

@[simp] theorem RCmd.tryFrom_toU8 (rcmd : RCmd) : tryFrom rcmd.toU8 = .ok rcmd := by cases rcmd <;> rfl

structure Cell where
  cid : UInt32
  cmd : Cmd
  flags : UInt8
  payload : List UInt8
  deriving DecidableEq, Repr

namespace Cell

/-- The fixed-size encoding; a payload that does not fit is an assertion failure. -/
def encode (cell : Cell) : Checked NetError (Octets cellLen) :=
  if fits : cell.payload.length ≤ cellData then
    .ok ⟨u32Le cell.cid ++ (cell.cmd.toU8 :: cell.flags :: (u16Le (UInt16.ofNat cell.payload.length) ++
      (cell.payload ++ List.replicate (cellData - cell.payload.length) 0))), by
        simp [cellData, cellLen, cellHdr] at fits ⊢; omega⟩
  else .panic

def decode (buf : List UInt8) : Checked NetError Cell :=
  if buf.length ≠ cellLen then .error (.badLength buf.length) else do
  let lenBytes ← Checked.arrayAt 2 buf 6
  let len := (u16OfLe lenBytes.bytes).toNat
  if cellData < len then .error .tooShort else do
  let cid ← Checked.arrayAt 4 buf 0
  let cmdByte ← Checked.byteAt buf 4
  let cmd ← Cmd.tryFrom cmdByte
  let flags ← Checked.byteAt buf 5
  let payload ← Checked.slice buf 8 (8 + len)
  return { cid := u32OfLe cid.bytes, cmd, flags, payload }

theorem encode_ok {cell : Cell} (fits : cell.payload.length ≤ cellData) :
    ∃ buf, cell.encode = .ok buf := ⟨_, dif_pos fits⟩

theorem decode_encode {cell : Cell} {buf : Octets cellLen} (encoded : cell.encode = .ok buf) :
    decode buf.bytes = .ok cell := by
  unfold encode at encoded
  split at encoded
  · rename_i fits
    have shape := congrArg Octets.bytes (Checked.ok.inj encoded)
    have small : cell.payload.length < 2 ^ 16 := by simp [cellData, cellLen, cellHdr] at fits; omega
    have len : (UInt16.ofNat cell.payload.length).toNat = cell.payload.length := by
      rw [UInt16.toNat_ofNat']
      exact Nat.mod_eq_of_lt small
    have payloadAt (rest : List UInt8) : (Checked.slice (u32Le cell.cid ++ (cell.cmd.toU8 :: cell.flags ::
        (u16Le (UInt16.ofNat cell.payload.length) ++ (cell.payload ++ rest)))) 8 (8 + cell.payload.length) :
        Checked NetError _) = .ok cell.payload := by
      have split : u32Le cell.cid ++ (cell.cmd.toU8 :: cell.flags ::
          (u16Le (UInt16.ofNat cell.payload.length) ++ (cell.payload ++ rest))) =
          (u32Le cell.cid ++ (cell.cmd.toU8 :: cell.flags :: u16Le (UInt16.ofNat cell.payload.length))) ++
            (cell.payload ++ rest) := by simp
      rw [split]
      exact Checked.slice_append (by simp) (by simp)
    have lenAt (rest : List UInt8) : (Checked.arrayAt 2 (u32Le cell.cid ++ (cell.cmd.toU8 :: cell.flags ::
        (u16Le (UInt16.ofNat cell.payload.length) ++ rest))) 6 : Checked NetError _) =
        .ok ⟨u16Le (UInt16.ofNat cell.payload.length), length_u16Le _⟩ := by
      have split : u32Le cell.cid ++ (cell.cmd.toU8 :: cell.flags ::
          (u16Le (UInt16.ofNat cell.payload.length) ++ rest)) =
          (u32Le cell.cid ++ [cell.cmd.toU8, cell.flags]) ++
            (u16Le (UInt16.ofNat cell.payload.length) ++ rest) := by simp
      rw [split]
      exact Checked.arrayAt_append ⟨u16Le (UInt16.ofNat cell.payload.length), length_u16Le _⟩ (by simp)
    have cidAt (rest : List UInt8) : (Checked.arrayAt 4 (u32Le cell.cid ++ rest) 0 : Checked NetError _) =
        .ok ⟨u32Le cell.cid, length_u32Le _⟩ :=
      Checked.arrayAt_head ⟨u32Le cell.cid, length_u32Le _⟩
    have cmdAt (rest : List UInt8) : (Checked.byteAt (u32Le cell.cid ++ (cell.cmd.toU8 :: rest)) 4 :
        Checked NetError _) = .ok cell.cmd.toU8 := Checked.byteAt_append (length_u32Le _).symm
    have flagsAt (rest : List UInt8) : (Checked.byteAt (u32Le cell.cid ++ (cell.cmd.toU8 :: cell.flags :: rest)) 5 :
        Checked NetError _) = .ok cell.flags := by
      have split : u32Le cell.cid ++ (cell.cmd.toU8 :: cell.flags :: rest) =
          (u32Le cell.cid ++ [cell.cmd.toU8]) ++ (cell.flags :: rest) := by simp
      rw [split]
      exact Checked.byteAt_append (by simp)
    rw [decode, if_neg (not_not_intro buf.size), ← shape]
    simp only [lenAt, Checked.ok_bind, u16OfLe_u16Le, len, Nat.not_lt.mpr fits, if_false, cidAt, cmdAt,
      Cmd.tryFrom_toU8, flagsAt, payloadAt, u32OfLe_u32Le, Checked.pure_eq]
  · cases encoded

end Cell

/-! CREATE fragments. -/

def chunkLen : Nat := cellData - 4

def parseFrag (payload : List UInt8) : Checked NetError (UInt16 × UInt16 × List UInt8) :=
  if payload.length < 4 then .error .tooShort else do
  let total ← Checked.arrayAt 2 payload 0
  let idx ← Checked.arrayAt 2 payload 2
  let chunk ← Checked.sliceFrom payload 4
  return (u16OfLe total.bytes, u16OfLe idx.bytes, chunk)

/-- `payload.len().div_ceil(chunk).max(1) as u16`. -/
def fragCount (payload : List UInt8) : UInt16 :=
  UInt16.ofNat (max ((payload.length + (chunkLen - 1)) / chunkLen) 1)

/-- `payload[i * chunk .. min((i + 1) * chunk, len)]`. -/
def fragChunk (payload : List UInt8) (i : Nat) : List UInt8 :=
  (payload.drop (i * chunkLen)).take (min ((i + 1) * chunkLen) payload.length - i * chunkLen)

def fragment (payload : List UInt8) : List (List UInt8) :=
  let cnt := fragCount payload
  (List.range cnt.toNat).map fun i => u16Le cnt ++ (u16Le (UInt16.ofNat i) ++ fragChunk payload i)

structure FragBuf where
  total : UInt16
  got : List (Option (List UInt8))
  count : Nat

namespace FragBuf

def fresh (total : UInt16) : FragBuf := ⟨total, List.replicate total.toNat none, 0⟩

/-- A different total starts the buffer over; a free slot in range takes the chunk. -/
def put (fb : FragBuf) (fragIdx total : UInt16) (chunk : List UInt8) : FragBuf :=
  let fb := if fb.total ≠ total then fresh total else fb
  if fb.got[fragIdx.toNat]? = some none then
    { fb with got := fb.got.set fragIdx.toNat (some chunk), count := fb.count + 1 }
  else fb

end FragBuf

/-- `for slot in got.drain(..) { out.extend(&slot?) }`. -/
def joinSlots : List (Option (List UInt8)) → Option (List UInt8)
  | [] => some []
  | none :: _ => none
  | some chunk :: rest => (joinSlots rest).map (chunk ++ ·)

def reassemble (cid : UInt32) (fragIdx total : UInt16) (chunk : List UInt8) (map : Table UInt32 FragBuf) :
    Option (List UInt8) × Table UInt32 FragBuf :=
  let fb := ((map.get cid).getD (.fresh total)).put fragIdx total chunk
  if fb.count = fb.total.toNat then
    match joinSlots fb.got with
    | some out => (some out, map.remove cid)
    | none => (none, map.insert cid { fb with got := [] })
  else (none, map.insert cid fb)

/-! Onion layers. -/

variable (C : Crates)

def sealOnion (keys : List (Octets 32)) (tag : Octets 16) (seq : UInt32) (msg : List UInt8) : List UInt8 :=
  keys.foldr (fun k payload => aeadSeal C k (relayNonce C tag 0 seq) payload) msg

def openOnion (key : Octets 32) (tag : Octets 16) (seq : UInt32) (onion : List UInt8) :
    Checked NetError (List UInt8) :=
  (aeadOpen C key (relayNonce C tag 0 seq) onion).mapErr .crypto

def sealBwd (key : Octets 32) (tag : Octets 16) (seq : UInt32) (msg : List UInt8) : List UInt8 :=
  aeadSeal C key (relayNonce C tag 1 seq) msg

def openBwd (key : Octets 32) (tag : Octets 16) (seq : UInt32) (onion : List UInt8) :
    Checked NetError (List UInt8) :=
  (aeadOpen C key (relayNonce C tag 1 seq) onion).mapErr .crypto

def openBwdAll : List (Octets 32) → Octets 16 → UInt32 → List UInt8 → Checked NetError (List UInt8)
  | [], _, _, data => .ok data
  | k :: keys, tag, seq, data => do
    let data ← openBwd C k tag seq data
    openBwdAll keys tag seq data

/-- All backward layers at once, from the last hop to the first. -/
def sealOnionBwd (keys : List (Octets 32)) (tag : Octets 16) (seq : UInt32) (msg : List UInt8) : List UInt8 :=
  keys.foldr (fun k payload => aeadSeal C k (relayNonce C tag 1 seq) payload) msg

/-- All backward layers at once, the outermost, of the first hop, first. -/
def openOnionBwd : List (Octets 32) → Octets 16 → UInt32 → List UInt8 → Checked NetError (List UInt8)
  | [], _, _, payload => .ok payload
  | k :: keys, tag, seq, payload => do
    let payload ← (aeadOpen C k (relayNonce C tag 1 seq) payload).mapErr .crypto
    openOnionBwd keys tag seq payload

end Nbf.Net
