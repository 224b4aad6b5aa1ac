import Nbf.Crypto.Identity

/-! DHT messages on the wire (`rpc.rs`): magic, type byte, body. -/

set_option autoImplicit false

namespace Nbf.Dht

open Nbf.Library Nbf.Crypto

structure Contact where
  nodeId : NodeId
  ip : Octets 4
  dhtPort : UInt16
  deriving DecidableEq, Repr

namespace Contact

def fromDesc (d : Descriptor) : Contact :=
  let ip := match d.cellAddr.ip with
    | .v4 octets => octets
    | .v6 _ => loopback
  { nodeId := d.nodeId, ip, dhtPort := d.dhtPort }

def addr (c : Contact) : SocketAddr := ⟨.v4 c.ip, c.dhtPort⟩

def bytes (c : Contact) : List UInt8 := c.nodeId.bytes ++ (c.ip.bytes ++ u16Le c.dhtPort)

@[simp] theorem length_bytes (c : Contact) : c.bytes.length = 26 := by simp [bytes]

theorem length_flatMap (contacts : List Contact) : (contacts.flatMap bytes).length = 26 * contacts.length := by
  induction contacts with
  | nil => rfl
  | cons c contacts ih =>
    rw [List.flatMap_cons, List.length_append, length_bytes, ih, List.length_cons]
    omega

end Contact

inductive RpcType where
  | ping | pong | store | find | found
  deriving DecidableEq, Repr

inductive DhtError where
  | badLen (len : Nat)
  | badType (type : UInt8)
  | badDesc (reason : String)
  | io
  deriving DecidableEq, Repr

def RpcType.toU8 : RpcType → UInt8
  | ping => 1
  | pong => 2
  | store => 3
  | find => 4
  | found => 5

def RpcType.tryFrom (v : UInt8) : Checked DhtError RpcType :=
  if v = 1 then .ok ping else if v = 2 then .ok pong else if v = 3 then .ok store
  else if v = 4 then .ok find else if v = 5 then .ok found else .error (.badType v)

@[simp] theorem RpcType.tryFrom_toU8 (t : RpcType) : tryFrom t.toU8 = .ok t := by cases t <;> rfl

inductive RpcMsg where
  | ping (nonce : UInt64)
  | pong (nonce : UInt64)
  | store (desc : Descriptor)
  | find (key : NodeId) (wantValue : Bool)
  | found (contacts : List Contact) (value : Option Descriptor)
  deriving DecidableEq

def magic : List UInt8 := ascii "NBFR"

@[simp] theorem length_magic : magic.length = 4 := by decide

/-- The type and body of a message; a descriptor with an IPv6 address panics. -/
def rpcBody (msg : RpcMsg) : Checked DhtError (RpcType × List UInt8) :=
  match msg with
  | .ping nonce => .ok (.ping, u64Le nonce)
  | .pong nonce => .ok (.pong, u64Le nonce)
  | .store desc => do
    let bytes ← desc.toBytes
    return (.store, bytes)
  | .find key wantValue => .ok (.find, key.bytes ++ [if wantValue then 1 else 0])
  | .found contacts value => do
    let bytes ← match value with
      | some v => v.toBytes
      | none => .ok []
    let flag := if value.isSome then 1 else 0
    return (.found, u16Le (UInt16.ofNat contacts.length) ++ (contacts.flatMap Contact.bytes ++ (flag :: bytes)))

def rpcEncode (msg : RpcMsg) : Checked DhtError (List UInt8) := do
  let (t, body) ← rpcBody msg
  return magic ++ t.toU8 :: body

def decodeContacts (body : List UInt8) : Nat → Nat → Checked DhtError (List Contact × Nat)
  | 0, o => .ok ([], o)
  | n + 1, o =>
    if body.length < o + 26 then .error (.badLen body.length) else do
    let nodeId ← Checked.arrayAt 20 body o
    let ip ← Checked.arrayAt 4 body (o + 20)
    let dhtPort ← Checked.arrayAt 2 body (o + 24)
    let (rest, last) ← decodeContacts body n (o + 26)
    return (⟨nodeId, ip, u16OfLe dhtPort.bytes⟩ :: rest, last)

def badDesc (err : CryptoError) : DhtError := .badDesc err.toString

variable (C : Crates)

def decodeBody (t : RpcType) (body : List UInt8) : Checked DhtError RpcMsg :=
  match t with
  | .ping =>
    if body.length ≠ 8 then .error (.badLen body.length) else do
    let nonce ← Checked.arrayAt 8 body 0
    return .ping (u64OfLe nonce.bytes)
  | .pong =>
    if body.length ≠ 8 then .error (.badLen body.length) else do
    let nonce ← Checked.arrayAt 8 body 0
    return .pong (u64OfLe nonce.bytes)
  | .store => do
    let desc ← (Descriptor.fromSignedBytes C body).mapErr badDesc
    return .store desc
  | .find =>
    if body.length < 21 then .error (.badLen body.length) else do
    let key ← Checked.arrayAt 20 body 0
    let wantValue ← Checked.byteAt body 20
    return .find key (wantValue != 0)
  | .found =>
    if body.length < 3 then .error (.badLen body.length) else do
    let count ← Checked.arrayAt 2 body 0
    let (contacts, o) ← decodeContacts body (u16OfLe count.bytes).toNat 2
    if body.length ≤ o then .error (.badLen body.length) else do
    let hasValue ← Checked.byteAt body o
    if hasValue = 0 then return .found contacts none else
    if body.length < o + 1 + Descriptor.descLen then .error (.badLen body.length) else do
    let bytes ← Checked.slice body (o + 1) (o + 1 + Descriptor.descLen)
    let value ← (Descriptor.fromSignedBytes C bytes).mapErr badDesc
    return .found contacts (some value)

def rpcDecode (data : List UInt8) : Checked DhtError RpcMsg :=
  if data.length < 5 then .error (.badLen data.length) else do
  let head ← Checked.slice data 0 4
  let typeByte ← Checked.byteAt data 4
  if head ≠ magic then .error (.badType typeByte) else do
  let t ← RpcType.tryFrom typeByte
  let body ← Checked.sliceFrom data 5
  decodeBody C t body

def pingResponse (nonce : UInt64) : RpcMsg := .pong nonce

variable {C}

theorem decodeContacts_append (front : List UInt8) (contacts : List Contact) (rest : List UInt8) :
    decodeContacts (front ++ (contacts.flatMap Contact.bytes ++ rest)) contacts.length front.length =
      .ok (contacts, front.length + 26 * contacts.length) := by
  induction contacts generalizing front with
  | nil => rfl
  | cons c contacts ih =>
    have shape : front ++ ((c :: contacts).flatMap Contact.bytes ++ rest) =
        front ++ (c.nodeId.bytes ++ (c.ip.bytes ++ (u16Le c.dhtPort ++ (contacts.flatMap Contact.bytes ++ rest)))) := by
      simp [Contact.bytes]
    have moved : front ++ ((c :: contacts).flatMap Contact.bytes ++ rest) =
        (front ++ c.bytes) ++ (contacts.flatMap Contact.bytes ++ rest) := by simp
    have idAt : (Checked.arrayAt 20 (front ++ ((c :: contacts).flatMap Contact.bytes ++ rest)) front.length :
        Checked DhtError _) = .ok c.nodeId := by
      rw [shape, Checked.arrayAt_skip (Nat.le_refl _), Nat.sub_self, Checked.arrayAt_head]
    have ipAt : (Checked.arrayAt 4 (front ++ ((c :: contacts).flatMap Contact.bytes ++ rest)) (front.length + 20) :
        Checked DhtError _) = .ok c.ip := by
      rw [shape]
      simp (disch := simp) only [Checked.arrayAt_skip, Nat.add_sub_cancel_left, Octets.length_bytes, Nat.sub_self,
        Checked.arrayAt_head]
    have portAt : (Checked.arrayAt 2 (front ++ ((c :: contacts).flatMap Contact.bytes ++ rest)) (front.length + 24) :
        Checked DhtError _) = .ok ⟨u16Le c.dhtPort, length_u16Le _⟩ := by
      rw [shape]
      simp (disch := simp) only [Checked.arrayAt_skip, Nat.add_sub_cancel_left, Octets.length_bytes, Nat.reduceSub]
      exact Checked.arrayAt_head ⟨_, _⟩
    have next : decodeContacts (front ++ ((c :: contacts).flatMap Contact.bytes ++ rest)) contacts.length (front.length + 26) =
        .ok (contacts, front.length + 26 * (c :: contacts).length) := by
      have further := ih (front ++ c.bytes)
      rw [List.length_append, Contact.length_bytes] at further
      rw [moved, further, List.length_cons]
      congr 2
      omega
    have long : ¬ (front ++ ((c :: contacts).flatMap Contact.bytes ++ rest)).length < front.length + 26 := by
      simp [Contact.bytes]
      omega
    rw [List.length_cons, decodeContacts, if_neg long]
    simp only [idAt, ipAt, portAt, next, Checked.ok_bind, u16OfLe_u16Le, Checked.pure_eq]
    rfl

theorem rpcDecode_framed (t : RpcType) (body : List UInt8) :
    rpcDecode C (magic ++ t.toU8 :: body) = decodeBody C t body := by
  have long : ¬ (magic ++ t.toU8 :: body).length < 5 := by
    simp only [List.length_append, length_magic, List.length_cons]
    omega
  have head : (Checked.slice (magic ++ t.toU8 :: body) 0 4 : Checked DhtError _) = .ok magic := by
    rw [Checked.slice_prefix (by simp), List.take_left' length_magic]
  have typeByte : (Checked.byteAt (magic ++ t.toU8 :: body) 4 : Checked DhtError _) = .ok t.toU8 :=
    Checked.byteAt_append length_magic.symm
  have rest : (Checked.sliceFrom (magic ++ t.toU8 :: body) 5 : Checked DhtError _) = .ok body := by
    rw [List.append_cons]
    exact Checked.sliceFrom_append (by simp)
  rw [rpcDecode, if_neg long]
  simp only [head, typeByte, rest, Checked.ok_bind, ne_eq, not_true_eq_false, if_false, RpcType.tryFrom_toU8]

theorem rpcDecode_store {d : Descriptor} (verified : d.Verified C) :
    ∃ bytes, rpcEncode (.store d) = .ok bytes ∧ rpcDecode C bytes = .ok (.store d) := by
  obtain ⟨bytes, encoded, -, back⟩ := Descriptor.fromSignedBytes_toBytes (ε := DhtError) verified
  refine ⟨magic ++ RpcType.store.toU8 :: bytes, ?_, ?_⟩
  · simp only [rpcEncode, rpcBody, encoded, Checked.ok_bind, Checked.pure_eq]
  · rw [rpcDecode_framed, decodeBody, back, Checked.mapErr_ok, Checked.ok_bind, Checked.pure_eq]

theorem decodeBody_found {contacts : List Contact} (few : contacts.length < 2 ^ 16) (flag : UInt8) (bytes : List UInt8) :
    ∃ body front, body = front ++ flag :: bytes ∧
      body = u16Le (UInt16.ofNat contacts.length) ++ (contacts.flatMap Contact.bytes ++ flag :: bytes) ∧
      decodeBody C .found body =
        if flag = 0 then .ok (.found contacts none) else
        if body.length < front.length + 1 + Descriptor.descLen then .error (.badLen body.length) else do
        let bytes ← Checked.slice body (front.length + 1) (front.length + 1 + Descriptor.descLen)
        let value ← (Descriptor.fromSignedBytes C bytes).mapErr badDesc
        return .found contacts (some value) := by
  have counted : (u16OfLe (u16Le (UInt16.ofNat contacts.length))).toNat = contacts.length := by
    rw [u16OfLe_u16Le, UInt16.toNat_ofNat_of_lt' few]
  obtain ⟨body, whole⟩ : ∃ body, body =
      u16Le (UInt16.ofNat contacts.length) ++ (contacts.flatMap Contact.bytes ++ flag :: bytes) := ⟨_, rfl⟩
  have shape : body = (u16Le (UInt16.ofNat contacts.length) ++ contacts.flatMap Contact.bytes) ++ flag :: bytes := by
    rw [whole, List.append_assoc]
  have count : (Checked.arrayAt 2 body 0 : Checked DhtError _) =
      .ok ⟨u16Le (UInt16.ofNat contacts.length), length_u16Le _⟩ := by
    rw [whole]
    exact Checked.arrayAt_head ⟨_, _⟩
  have front : (u16Le (UInt16.ofNat contacts.length) ++ contacts.flatMap Contact.bytes).length = 2 + 26 * contacts.length := by
    rw [List.length_append, length_u16Le, Contact.length_flatMap]
  have read : decodeContacts body contacts.length 2 = .ok (contacts, 2 + 26 * contacts.length) := by
    have loop := decodeContacts_append (u16Le (UInt16.ofNat contacts.length)) contacts (flag :: bytes)
    rwa [length_u16Le, ← whole] at loop
  have flagAt : (Checked.byteAt body (2 + 26 * contacts.length) : Checked DhtError _) = .ok flag := by
    rw [shape]
    exact Checked.byteAt_append front.symm
  refine ⟨body, _, shape, whole, ?_⟩
  have long : ¬ body.length < 3 := by
    rw [shape, List.length_append, front, List.length_cons]
    omega
  have more : ¬ body.length ≤ 2 + 26 * contacts.length := by
    rw [shape, List.length_append, front, List.length_cons]
    omega
  simp only [decodeBody, if_neg long, count, Checked.ok_bind, counted, read, if_neg more, flagAt, front, Checked.pure_eq]

theorem rpcDecode_found (contacts : List Contact) (value : Option Descriptor) (few : contacts.length < 2 ^ 16)
    (verified : ∀ d ∈ value, d.Verified C) :
    ∃ bytes, rpcEncode (.found contacts value) = .ok bytes ∧ rpcDecode C bytes = .ok (.found contacts value) := by
  cases value with
  | none =>
    obtain ⟨body, front, -, whole, decoded⟩ := decodeBody_found (C := C) few 0 []
    refine ⟨magic ++ RpcType.found.toU8 :: body, ?_, ?_⟩
    · rw [whole]
      rfl
    · rw [rpcDecode_framed, decoded, if_pos rfl]
  | some d =>
    obtain ⟨bytes, encoded, size, back⟩ := Descriptor.fromSignedBytes_toBytes (ε := DhtError) (verified d rfl)
    obtain ⟨body, front, shape, whole, decoded⟩ := decodeBody_found (C := C) few 1 bytes
    refine ⟨magic ++ RpcType.found.toU8 :: body, ?_, ?_⟩
    · simp only [rpcEncode, rpcBody, encoded, Checked.ok_bind, Checked.pure_eq, whole]
      rfl
    · have valueAt : (Checked.slice body (front.length + 1) (front.length + 1 + Descriptor.descLen) : Checked DhtError _) =
          .ok bytes := by
        have cut : body = (front ++ [1]) ++ (bytes ++ []) := by rw [shape, List.append_nil, List.append_cons]
        rw [cut]
        exact Checked.slice_append (by simp) (by simp [size])
      have enough : ¬ body.length < front.length + 1 + Descriptor.descLen := by
        rw [shape, List.length_append, List.length_cons, size]
        omega
      rw [rpcDecode_framed, decoded, if_neg (by decide), if_neg enough, valueAt, Checked.ok_bind, back, Checked.mapErr_ok,
        Checked.ok_bind, Checked.pure_eq]

def RpcMsg.contacts : RpcMsg → List Contact
  | .found contacts _ => contacts
  | _ => []

def RpcMsg.descriptors : RpcMsg → List Descriptor
  | .store desc => [desc]
  | .found _ value => value.toList
  | _ => []

theorem length_rpcEncode {msg : RpcMsg} {bytes : List UInt8} (encoded : rpcEncode msg = .ok bytes) :
    bytes.length ≤ 1393 + 26 * msg.contacts.length := by
  cases msg with
  | ping | pong | find =>
    cases encoded
    simp [RpcMsg.contacts]
  | store desc =>
    obtain ⟨⟨t, body⟩, written, same⟩ := Checked.bind_eq_ok.mp encoded
    obtain ⟨signed, wrote, again⟩ := Checked.bind_eq_ok.mp written
    cases again
    cases same
    simp [Descriptor.length_toBytes wrote, Descriptor.descLen, RpcMsg.contacts]
  | found contacts value =>
    obtain ⟨⟨t, body⟩, written, same⟩ := Checked.bind_eq_ok.mp encoded
    have shape : ∃ flag signed, body = u16Le (UInt16.ofNat contacts.length) ++ (contacts.flatMap Contact.bytes ++ flag :: signed) ∧
        signed.length ≤ Descriptor.descLen := by
      cases value with
      | none =>
        cases written
        exact ⟨_, _, rfl, Nat.zero_le _⟩
      | some d =>
        obtain ⟨signed, wrote, again⟩ := Checked.bind_eq_ok.mp written
        cases again
        exact ⟨_, _, rfl, Nat.le_of_eq (Descriptor.length_toBytes wrote)⟩
    obtain ⟨flag, signed, rfl, size⟩ := shape
    cases same
    simp only [List.length_append, List.length_cons, length_magic, length_u16Le, Contact.length_flatMap, RpcMsg.contacts]
    rw [Descriptor.descLen] at size
    omega

def RpcMsg.type : RpcMsg → RpcType
  | .ping _ => .ping
  | .pong _ => .pong
  | .store _ => .store
  | .find _ _ => .find
  | .found _ _ => .found

theorem decodeBody_type {t : RpcType} {body : List UInt8} {msg : RpcMsg} (read : decodeBody C t body = .ok msg) :
    msg.type = t := by
  cases t with
  | store =>
    obtain ⟨desc, -, same⟩ := Checked.bind_eq_ok.mp read
    cases same
    rfl
  | ping | pong =>
    simp only [decodeBody] at read
    split at read
    · cases read
    obtain ⟨nonce, -, same⟩ := Checked.bind_eq_ok.mp read
    cases same
    rfl
  | find =>
    simp only [decodeBody] at read
    split at read
    · cases read
    obtain ⟨key, -, read⟩ := Checked.bind_eq_ok.mp read
    obtain ⟨wantValue, -, same⟩ := Checked.bind_eq_ok.mp read
    cases same
    rfl
  | found =>
    simp only [decodeBody] at read
    split at read
    · cases read
    obtain ⟨count, -, read⟩ := Checked.bind_eq_ok.mp read
    obtain ⟨⟨contacts, o⟩, -, read⟩ := Checked.bind_eq_ok.mp read
    dsimp only at read
    split at read
    · cases read
    obtain ⟨hasValue, -, read⟩ := Checked.bind_eq_ok.mp read
    split at read
    · cases read
      rfl
    split at read
    · cases read
    obtain ⟨bytes, -, read⟩ := Checked.bind_eq_ok.mp read
    obtain ⟨value, -, same⟩ := Checked.bind_eq_ok.mp read
    cases same
    rfl

theorem rpcDecode_rpcEncode_type {msg read : RpcMsg} {bytes : List UInt8} (encoded : rpcEncode msg = .ok bytes)
    (decoded : rpcDecode C bytes = .ok read) : read.type = msg.type := by
  obtain ⟨⟨t, body⟩, split, same⟩ := Checked.bind_eq_ok.mp encoded
  cases same
  rw [rpcDecode_framed] at decoded
  rw [decodeBody_type decoded]
  cases msg with
  | ping | pong | find =>
    cases split
    rfl
  | store =>
    obtain ⟨bytes, -, same⟩ := Checked.bind_eq_ok.mp split
    cases same
    rfl
  | found contacts value =>
    cases value with
    | none =>
      cases split
      rfl
    | some v =>
      obtain ⟨bytes, -, same⟩ := Checked.bind_eq_ok.mp split
      cases same
      rfl

theorem rpcDecode_store_verified {data : List UInt8} {d : Descriptor} (read : rpcDecode C data = .ok (.store d)) : d.Verified C := by
  unfold rpcDecode at read
  split at read
  · cases read
  obtain ⟨head, -, read⟩ := Checked.bind_eq_ok.mp read
  obtain ⟨typeByte, -, read⟩ := Checked.bind_eq_ok.mp read
  split at read
  · cases read
  obtain ⟨t, -, read⟩ := Checked.bind_eq_ok.mp read
  obtain ⟨body, -, read⟩ := Checked.bind_eq_ok.mp read
  have isStore : RpcType.store = t := decodeBody_type read
  subst isStore
  obtain ⟨desc, checked, same⟩ := Checked.bind_eq_ok.mp read
  cases same
  exact (Descriptor.fromSignedBytes_eq_ok (ε := DhtError) (Checked.mapErr_eq_ok.mp checked)).2

end Nbf.Dht
