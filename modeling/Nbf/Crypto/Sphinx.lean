import Nbf.Crypto.Identity

/-! The Sphinx header (`sphinx.rs`): built in one pass by the origin and peeled
one layer at a time by the hops.

Layout for `n` hops: version, `n`, the tag, `n` alpha slots of 32 bytes, then the
outermost blob, which nests the blobs of all later hops.
-/

set_option autoImplicit false

namespace Nbf.Crypto

open Nbf.Library

/-- next id, ip, port, link key and padding (64 bytes), then the ML-KEM ciphertext. -/
def layerInfoLen : Nat := 64 + ctLen
def layerLen : Nat := 16 + layerInfoLen
def maxHops : Nat := 5
def hdrFixed : Nat := 18

structure BuiltHeader where
  header : List UInt8
  tag : Octets 16
  fwdKeys : List (Octets 32)
  bwdKeys : List (Octets 32)
  firstAddr : SocketAddr

inductive ProcessOutcome where
  | terminal (tag : Octets 16) (kFwd kBwd : Octets 32)
  | relay (tag : Octets 16) (kFwd kBwd : Octets 32) (nextId : NodeId) (nextAddr : SocketAddr)
      (newHeader : List UInt8)
  deriving DecidableEq

variable (C : Crates)

/-! The origin. A route is the list of its descriptors. -/

/-- Step 1: for each hop a raw scalar `x` and the secret for the effective scalar `x * blind_acc`. -/
def blindRoute : List Descriptor → C.Scalar → C.Rng → List (C.Scalar × Octets 32) × C.Rng
  | [], _, rng => ([], rng)
  | desc :: rest, blindAcc, rng =>
    let (x, rng) := C.scalarRandom rng
    let eff := x * blindAcc
    let pt := C.mulPoint desc.sphinxPub eff
    let b := C.fromHash (pt.bytes ++ (C.scalarToBytes eff).bytes)
    let (tail, rng) := blindRoute rest (blindAcc * b) rng
    ((x, pt) :: tail, rng)

/-- Step 2: encapsulate to every hop; the first failure ends the loop. -/
def encapRoute : List Descriptor → C.Rng → Checked CryptoError (List (Octets ctLen × Octets 32)) × C.Rng
  | [], rng => (.ok [], rng)
  | desc :: rest, rng =>
    match kemEncap C desc.kemPk rng with
    | (.ok pair, rng) =>
      let (tail, rng) := encapRoute rest rng
      (do return pair :: (← tail), rng)
    | (.error err, rng) => (.error err, rng)
    | (.panic, rng) => (.panic, rng)

/-- Step 3: the plaintext of one layer, for the hop before `next`. -/
def layerInfo (next : Option Descriptor) (ct : Octets ctLen) : Octets layerInfoLen :=
  match next with
  | some nd =>
    let ip := nd.cellAddr.ip.v4Bytes?.getD (.zeros 4)
    ⟨nd.nodeId.bytes ++ (ip.bytes ++ (u16Le nd.cellAddr.port ++ (nd.linkPub.bytes ++
      ((Octets.zeros 6).bytes ++ ct.bytes)))), by simp [layerInfoLen]; omega⟩
  | none => ⟨terminalId.bytes ++ ((Octets.zeros 44).bytes ++ ct.bytes), by simp [layerInfoLen, ctLen]⟩

/-- One hop's share of the header: its X25519 secret and its layer's plaintext. -/
structure Layer where
  ssX : Octets 32
  info : Octets layerInfoLen

def layersOf : List Descriptor → List (Octets 32) → List (Octets ctLen) → List Layer
  | _ :: rest, ss :: sss, ct :: cts => ⟨ss, layerInfo rest.head? ct⟩ :: layersOf rest sss cts
  | _, _, _ => []

/-- Step 4: seal from the innermost layer out. The source runs `t` from `n - 1` down to 0 and
appends `blobs.last()`; here that is the blob of the remaining layers, and `n - t` their number. -/
def nestLayers (tag : Octets 16) : List Layer → List UInt8
  | [] => []
  | layer :: rest =>
    let key := deriveHdrKey C layer.ssX tag
    let nonce := hdrNonce C tag (UInt8.ofNat (rest.length + 1))
    aeadSeal C key nonce (layer.info.bytes ++ nestLayers tag rest)

def encodeHeader (tag : Octets 16) (slots : List (Octets 32)) (blob : List UInt8) : List UInt8 :=
  1 :: UInt8.ofNat slots.length :: (tag.bytes ++ (slots.flatMap Octets.bytes ++ blob))

def buildHeader (route : List Descriptor) (tag : Octets 16) (rng : C.Rng) :
    Checked CryptoError BuiltHeader × C.Rng :=
  match route with
  | [] => (.error (.badLength 0), rng)
  | first :: _ =>
    if maxHops < route.length then (.error (.badLength route.length), rng) else
    let (blinded, rng) := blindRoute C route 1 rng
    let (encapped, rng) := encapRoute C route rng
    (do
      let kems ← encapped
      let ssXs := blinded.map (·.2)
      let layers := layersOf route ssXs (kems.map (·.1))
      let header := encodeHeader tag (blinded.map fun p => C.scalarToBytes p.1) (nestLayers C tag layers)
      let keys := List.zipWith (fun ssX ssKem => deriveTrafficKeys C ssX ssKem tag) ssXs (kems.map (·.2))
      return { header, tag, fwdKeys := keys.map (·.1), bwdKeys := keys.map (·.2),
               firstAddr := first.cellAddr }, rng)

/-! A hop. -/

/-- The second half of `process_header`: what follows from the opened layer. -/
def layerOutcome (id : NodeIdentity C) (tag : Octets 16) (nField : UInt8) (ssX alphaBytes : Octets 32)
    (body opened : List UInt8) : Checked CryptoError ProcessOutcome := do
  let n := nField.toNat
  let inner ← Checked.sub n 1
  if opened.length ≠ layerInfoLen + inner * layerLen then .error .sphinx else do
  let nextId ← Checked.arrayAt 20 opened 0
  let ip ← Checked.arrayAt 4 opened 20
  let port ← Checked.arrayAt 2 opened 24
  let ct ← Checked.arrayAt ctLen opened 64
  let ssKem ← kemDecap C id.kemSk ct
  let (kFwd, kBwd) := deriveTrafficKeys C ssX ssKem tag
  if nextId = terminalId then return .terminal tag kFwd kBwd else do
  let b := C.fromHash (ssX.bytes ++ alphaBytes.bytes)
  let rest ← Checked.slice body 32 (n * 32)
  let slots := (chunksExact 32 rest).map fun a => C.scalarToBytes (C.fromBytesModOrder a * b)
  let deeper ← Checked.sliceFrom opened layerInfoLen
  let newHeader := 1 :: (nField - 1) :: (tag.bytes ++ (slots.flatMap Octets.bytes ++ deeper))
  return .relay tag kFwd kBwd nextId ⟨.v4 ip, u16OfLe port.bytes⟩ newHeader

/-- Peel one layer with the hop's own secrets, blind the remaining alphas, cut the next header. -/
def processHeader (id : NodeIdentity C) (header : List UInt8) : Checked CryptoError ProcessOutcome :=
  if header.length < hdrFixed then .error .sphinx else do
  let ver ← Checked.byteAt header 0
  let nField ← Checked.byteAt header 1
  if ver ≠ 1 ∨ nField = 0 then .error .sphinx else do
  let tag ← Checked.arrayAt 16 header 2
  let n := nField.toNat
  let body ← Checked.sliceFrom header hdrFixed
  if body.length ≠ n * 32 + n * layerLen then .error .sphinx else do
  let alphaBytes ← Checked.arrayAt 32 body 0
  let alpha0 := C.fromBytesModOrder alphaBytes
  -- The public key enters here; `sphinx_priv` is not read.
  let ssX := C.mulPoint id.sphinxPub alpha0
  let key := deriveHdrKey C ssX tag
  let nonce := hdrNonce C tag nField
  let tail ← Checked.sliceFrom body (n * 32)
  let myBlob ← Checked.slice tail 0 (n * layerLen)
  let opened ← (aeadOpen C key nonce myBlob).mapErr fun _ => .sphinx
  layerOutcome C id tag nField ssX alphaBytes body opened

end Nbf.Crypto
