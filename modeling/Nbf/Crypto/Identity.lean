import Nbf.Crypto.Kdf

/-! Node identities and the descriptors they sign (`identity.rs`). -/

set_option autoImplicit false

namespace Nbf.Crypto

open Nbf.Library

abbrev NodeId := Octets 20

/-- The id that marks the end of a route in a layer. -/
def terminalId : NodeId := .replicate 20 0xFF

inductive IpAddr where
  | v4 (octets : Octets 4)
  | v6 (octets : Octets 16)
  deriving DecidableEq, Repr

structure SocketAddr where
  ip : IpAddr
  port : UInt16
  deriving DecidableEq, Repr

def loopback : Octets 4 := ⟨[127, 0, 0, 1], rfl⟩

/-- The bytes of a layer or descriptor that hold an IPv4 address; an IPv6 address has none. -/
def IpAddr.v4Bytes? : IpAddr → Option (Octets 4)
  | .v4 octets => some octets
  | .v6 _ => none

structure NodeIdentity (C : Crates) where
  ed : C.SigningKey
  linkPriv : Octets 32
  linkPub : Octets 32
  sphinxPriv : C.Scalar
  sphinxPub : Octets 32
  kemSk : C.DecapsKey
  kemPk : Octets kemPkLen

variable {C : Crates}

def x25519PubFromClamped (C : Crates) (privClamped : Octets 32) : Octets 32 :=
  C.mulBase (C.fromBytesModOrder privClamped)

def nodeIdFromEdPub (C : Crates) (edPub : Octets 32) : NodeId :=
  (C.sha256 edPub.bytes).take 20 (by decide)

def clamp (key : Octets 32) : Octets 32 :=
  ⟨(key.bytes.modify 0 (· &&& 248)).modify 31 (fun b => (b &&& 127) ||| 64), by simp⟩

def NodeIdentity.random (C : Crates) (rng : C.Rng) : NodeIdentity C × C.Rng :=
  let (ed, rng) := C.signingGenerate rng
  let (raw, rng) := C.fillBytes 32 rng
  let linkPriv := clamp raw
  let linkPub := x25519PubFromClamped C linkPriv
  let (sphinxPriv, rng) := C.scalarRandom rng
  let sphinxPub := C.mulBase sphinxPriv
  let ((kemSk, kemPk), rng) := C.kemGenerate rng
  ({ ed, linkPriv, linkPub, sphinxPriv, sphinxPub, kemSk, kemPk }, rng)

/-- An identity that `NodeIdentity::random` returned for some state of the generator. -/
def NodeIdentity.Generated (id : NodeIdentity C) : Prop :=
  ∃ rng, (NodeIdentity.random C rng).1 = id

theorem NodeIdentity.Generated.kem {id : NodeIdentity C} (generated : id.Generated) :
    ∃ seed, (C.kemGenerate seed).1 = (id.kemSk, id.kemPk) := by
  obtain ⟨rng, rfl⟩ := generated
  exact ⟨_, rfl⟩

def NodeIdentity.edPub (id : NodeIdentity C) : Octets 32 := C.verifyingKey id.ed

def NodeIdentity.nodeId (id : NodeIdentity C) : NodeId := nodeIdFromEdPub C id.edPub

def NodeIdentity.signEd (id : NodeIdentity C) (msg : List UInt8) : Octets 64 := C.sign id.ed msg

structure Descriptor where
  nodeId : NodeId
  edPub : Octets 32
  linkPub : Octets 32
  sphinxPub : Octets 32
  kemPk : Octets kemPkLen
  cellAddr : SocketAddr
  dhtPort : UInt16
  ts : UInt64
  sig : Octets 64
  deriving DecidableEq

namespace Descriptor

/-- Where the DHT of the node listens; an IPv6 address gives the unspecified one. -/
def dhtAddr (d : Descriptor) : SocketAddr :=
  let ip := match d.cellAddr.ip with
    | .v4 octets => octets
    | .v6 _ => .zeros 4
  ⟨.v4 ip, d.dhtPort⟩

def magic : List UInt8 := ascii "NBFD"
def ver : UInt8 := 1

/-- The encoding; it panics on an IPv6 address. -/
def toBytes {ε : Type} (d : Descriptor) : Checked ε (List UInt8) :=
  match d.cellAddr.ip.v4Bytes? with
  | none => .panic
  | some ip => .ok (magic ++ ver :: (d.nodeId.bytes ++ (d.edPub.bytes ++ (d.linkPub.bytes ++
      (d.sphinxPub.bytes ++ (d.kemPk.bytes ++ (ip.bytes ++ (u16Le d.cellAddr.port ++
      (u16Le d.dhtPort ++ (u64Le d.ts ++ d.sig.bytes))))))))))

/-- What is signed: the encoding without its last 64 bytes. -/
def signingBytes {ε : Type} (d : Descriptor) : Checked ε (List UInt8) := do
  let b ← d.toBytes
  let n ← Checked.sub b.length 64
  return b.take n

def sign {ε : Type} (id : NodeIdentity C) (cellAddr : SocketAddr) (dhtPort : UInt16) (nowUnix : UInt64) :
    Checked ε Descriptor := do
  let d : Descriptor :=
    { nodeId := id.nodeId, edPub := id.edPub, linkPub := id.linkPub, sphinxPub := id.sphinxPub,
      kemPk := id.kemPk, cellAddr, dhtPort, ts := nowUnix, sig := .zeros 64 }
  let signing ← d.signingBytes
  return { d with sig := id.signEd signing }

/-- `d` is a descriptor that `id` signed for itself, at some address and time. -/
def SignedBy (id : NodeIdentity C) (d : Descriptor) : Prop :=
  ∃ cellAddr dhtPort nowUnix, (sign id cellAddr dhtPort nowUnix : Checked CryptoError _) = .ok d

theorem SignedBy.fields {id : NodeIdentity C} {d : Descriptor} (signed : SignedBy id d) :
    d.nodeId = id.nodeId ∧ d.edPub = id.edPub ∧ d.linkPub = id.linkPub ∧ d.sphinxPub = id.sphinxPub ∧
      d.kemPk = id.kemPk ∧ ∃ octets, d.cellAddr.ip = .v4 octets := by
  obtain ⟨cellAddr, dhtPort, nowUnix, signed⟩ := signed
  obtain ⟨signing, bytes, same⟩ := Checked.bind_eq_ok.mp signed
  obtain ⟨encoded, encoding, -⟩ := Checked.bind_eq_ok.mp bytes
  simp only [Checked.pure_eq, Checked.ok.injEq] at same
  subst same
  refine ⟨rfl, rfl, rfl, rfl, rfl, ?_⟩
  cases shape : cellAddr.ip with
  | v4 octets => exact ⟨octets, rfl⟩
  | v6 octets => simp [toBytes, shape, IpAddr.v4Bytes?] at encoding

def descLen : Nat := 1385

def fromSignedBytes (C : Crates) (bytes : List UInt8) : Checked CryptoError Descriptor :=
  if bytes.length ≠ descLen then .error (.badLength bytes.length) else do
  let head ← Checked.slice bytes 0 4
  let version ← Checked.byteAt bytes 4
  if head ≠ magic ∨ version ≠ ver then .error .descriptor else do
  let nodeId ← Checked.arrayAt 20 bytes 5
  let edPub ← Checked.arrayAt 32 bytes 25
  let linkPub ← Checked.arrayAt 32 bytes 57
  let sphinxPub ← Checked.arrayAt 32 bytes 89
  let kemPk ← Checked.arrayAt kemPkLen bytes 121
  let ip ← Checked.arrayAt 4 bytes 1305
  let port ← Checked.arrayAt 2 bytes 1309
  let dhtPort ← Checked.arrayAt 2 bytes 1311
  let ts ← Checked.arrayAt 8 bytes 1313
  let sig ← Checked.arrayAt 64 bytes 1321
  let signed ← Checked.slice bytes 0 (descLen - 64)
  if ¬ C.verify edPub signed sig then .error .ed25519 else
  if nodeIdFromEdPub C edPub ≠ nodeId then .error .descriptor else
  .ok { nodeId, edPub, linkPub, sphinxPub, kemPk, cellAddr := ⟨.v4 ip, u16OfLe port.bytes⟩,
        dhtPort := u16OfLe dhtPort.bytes, ts := u64OfLe ts.bytes, sig }

/-- What `fromSignedBytes` checks of a descriptor, beside the format of its bytes. -/
structure Verified (C : Crates) (d : Descriptor) : Prop where
  v4 : ∃ octets, d.cellAddr.ip = .v4 octets
  signed : ∃ signing, (d.signingBytes : Checked CryptoError _) = .ok signing ∧ C.verify d.edPub signing d.sig = true
  named : nodeIdFromEdPub C d.edPub = d.nodeId

@[simp] theorem length_magic : magic.length = 4 := by decide

theorem toBytes_v4 {ε : Type} {d : Descriptor} {ip : Octets 4} (v4 : d.cellAddr.ip = .v4 ip) :
    ∃ bytes, (d.toBytes : Checked ε _) = .ok bytes ∧ bytes.length = descLen ∧
      bytes = magic ++ ([ver] ++ (d.nodeId.bytes ++ (d.edPub.bytes ++ (d.linkPub.bytes ++
      (d.sphinxPub.bytes ++ (d.kemPk.bytes ++ (ip.bytes ++ (u16Le d.cellAddr.port ++
      (u16Le d.dhtPort ++ (u64Le d.ts ++ d.sig.bytes)))))))))) := by
  refine ⟨_, by rw [toBytes, v4]; rfl, ?_, rfl⟩
  simp [kemPkLen, descLen]

theorem length_toBytes {ε : Type} {d : Descriptor} {bytes : List UInt8} (encoded : (d.toBytes : Checked ε _) = .ok bytes) :
    bytes.length = descLen := by
  cases v4 : d.cellAddr.ip with
  | v4 ip =>
    obtain ⟨whole, same, size, -⟩ := toBytes_v4 (ε := ε) v4
    obtain rfl := Checked.ok.inj (encoded.symm.trans same)
    exact size
  | v6 octets => simp [toBytes, v4, IpAddr.v4Bytes?] at encoded

theorem signingBytes_sig {ε : Type} {d : Descriptor} {signing : List UInt8}
    (bytes : (d.signingBytes : Checked ε _) = .ok signing) (sig : Octets 64) :
    ({ d with sig } : Descriptor).signingBytes = (.ok signing : Checked ε _) := by
  rw [← bytes]
  cases v4 : d.cellAddr.ip with
  | v6 octets => simp only [signingBytes, toBytes, v4, IpAddr.v4Bytes?, Checked.panic_bind]
  | v4 ip =>
    obtain ⟨whole, encoded, size, shape⟩ := toBytes_v4 (ε := ε) (d := { d with sig }) v4
    obtain ⟨whole', encoded', size', shape'⟩ := toBytes_v4 (ε := ε) v4
    have same : whole.take (descLen - 64) = whole'.take (descLen - 64) := by
      rw [shape, shape']
      simp [List.take_append, kemPkLen, descLen]
    rw [signingBytes, signingBytes, encoded, encoded', Checked.ok_bind, Checked.ok_bind, size, size',
      Checked.sub_of_le (by decide), Checked.ok_bind, Checked.ok_bind, same]

theorem SignedBy.verified_of {id : NodeIdentity C} {d : Descriptor}
    (verifies : ∀ key msg, C.verify (C.verifyingKey key) msg (C.sign key msg) = true) (signed : SignedBy id d) :
    d.Verified C := by
  obtain ⟨nodeId, edPub, -, -, -, v4⟩ := signed.fields
  obtain ⟨cellAddr, dhtPort, nowUnix, signed⟩ := signed
  obtain ⟨signing, bytes, same⟩ := Checked.bind_eq_ok.mp signed
  simp only [Checked.pure_eq, Checked.ok.injEq] at same
  subst same
  exact ⟨v4, ⟨signing, signingBytes_sig bytes _, verifies id.ed signing⟩, rfl⟩

theorem SignedBy.verified {id : NodeIdentity C} {d : Descriptor} (laws : C.Lawful) (signed : SignedBy id d) : d.Verified C :=
  signed.verified_of laws.verify_sign

theorem fromSignedBytes_toBytes {ε : Type} {d : Descriptor} (verified : d.Verified C) :
    ∃ bytes, (d.toBytes : Checked ε _) = .ok bytes ∧ bytes.length = descLen ∧ fromSignedBytes C bytes = .ok d := by
  obtain ⟨ip, v4⟩ := verified.v4
  obtain ⟨signing, signed, genuine⟩ := verified.signed
  obtain ⟨bytes, encoded, size, shape⟩ := toBytes_v4 v4
  obtain ⟨_, encoded', -, rfl⟩ := toBytes_v4 v4
  rw [← shape] at encoded'
  have kemLen : d.kemPk.bytes.length = 1184 := d.kemPk.size
  have head : (Checked.slice bytes 0 4 : Checked CryptoError _) = .ok magic := by
    rw [Checked.slice_prefix (by rw [size, descLen]; decide), shape, List.take_left' length_magic]
  have version : (Checked.byteAt bytes 4 : Checked CryptoError _) = .ok ver := by
    rw [shape]
    exact Checked.byteAt_append length_magic.symm
  have covered : (Checked.slice bytes 0 (descLen - 64) : Checked CryptoError _) = .ok signing := by
    rw [signingBytes, encoded', Checked.ok_bind, size, Checked.sub_of_le (by decide), Checked.ok_bind, Checked.pure_eq] at signed
    rw [← Checked.ok.inj signed, Checked.slice_prefix (by omega)]
  have port : (Checked.arrayAt 2 bytes 1309 : Checked CryptoError _) = .ok ⟨u16Le d.cellAddr.port, length_u16Le _⟩ := by
    rw [shape]
    simp (disch := simp [kemLen]) only [Checked.arrayAt_skip, length_magic, List.length_singleton, Octets.length_bytes,
      kemLen, Nat.reduceSub]
    exact Checked.arrayAt_head ⟨_, _⟩
  have dhtPort : (Checked.arrayAt 2 bytes 1311 : Checked CryptoError _) = .ok ⟨u16Le d.dhtPort, length_u16Le _⟩ := by
    rw [shape]
    simp (disch := simp [kemLen]) only [Checked.arrayAt_skip, length_magic, List.length_singleton, Octets.length_bytes,
      length_u16Le, kemLen, Nat.reduceSub]
    exact Checked.arrayAt_head ⟨_, _⟩
  have ts : (Checked.arrayAt 8 bytes 1313 : Checked CryptoError _) = .ok ⟨u64Le d.ts, length_u64Le _⟩ := by
    rw [shape]
    simp (disch := simp [kemLen]) only [Checked.arrayAt_skip, length_magic, List.length_singleton, Octets.length_bytes,
      length_u16Le, kemLen, Nat.reduceSub]
    exact Checked.arrayAt_head ⟨_, _⟩
  refine ⟨bytes, encoded, size, ?_⟩
  rw [fromSignedBytes, if_neg (not_not.mpr size)]
  simp only [head, version, covered, port, dhtPort, ts, Checked.ok_bind]
  subst shape
  simp (disch := simp [kemLen]) only [Checked.arrayAt_skip, length_magic, List.length_singleton, Octets.length_bytes,
    length_u16Le, length_u64Le, kemLen, Nat.reduceSub, Checked.arrayAt_head, Checked.arrayAt_self, Checked.ok_bind,
    genuine, verified.named, not_true_eq_false, ne_eq, or_self, if_false, u16OfLe_u16Le, u64OfLe_u64Le]
  rw [← v4]

theorem fromSignedBytes_length {bytes : List UInt8} {d : Descriptor} (read : fromSignedBytes C bytes = .ok d) :
    bytes.length = descLen := by
  unfold fromSignedBytes at read
  split at read
  · cases read
  next size => exact not_not.mp size

theorem fromSignedBytes_eq_ok {ε : Type} {bytes : List UInt8} {d : Descriptor} (read : fromSignedBytes C bytes = .ok d) :
    (d.toBytes : Checked ε _) = .ok bytes ∧ d.Verified C := by
  unfold fromSignedBytes at read
  split at read
  · cases read
  next size =>
  rw [ne_eq, not_not] at size
  obtain ⟨head, headAt, read⟩ := Checked.bind_eq_ok.mp read
  obtain ⟨version, versionAt, read⟩ := Checked.bind_eq_ok.mp read
  split at read
  · cases read
  next marked =>
  simp only [ne_eq, not_or, not_not] at marked
  obtain ⟨isMagic, isVer⟩ := marked
  obtain ⟨nodeId, nodeIdAt, read⟩ := Checked.bind_eq_ok.mp read
  obtain ⟨edPub, edPubAt, read⟩ := Checked.bind_eq_ok.mp read
  obtain ⟨linkPub, linkPubAt, read⟩ := Checked.bind_eq_ok.mp read
  obtain ⟨sphinxPub, sphinxPubAt, read⟩ := Checked.bind_eq_ok.mp read
  obtain ⟨kemPk, kemPkAt, read⟩ := Checked.bind_eq_ok.mp read
  obtain ⟨ip, ipAt, read⟩ := Checked.bind_eq_ok.mp read
  obtain ⟨port, portAt, read⟩ := Checked.bind_eq_ok.mp read
  obtain ⟨dhtPort, dhtPortAt, read⟩ := Checked.bind_eq_ok.mp read
  obtain ⟨ts, tsAt, read⟩ := Checked.bind_eq_ok.mp read
  obtain ⟨sig, sigAt, read⟩ := Checked.bind_eq_ok.mp read
  obtain ⟨signed, signedAt, read⟩ := Checked.bind_eq_ok.mp read
  split at read
  · cases read
  next genuine =>
  split at read
  · cases read
  next named =>
  rw [not_not] at genuine named
  -- The bytes are what was read of them, field by field from the end.
  have whole : bytes = magic ++ ver :: (nodeId.bytes ++ (edPub.bytes ++ (linkPub.bytes ++ (sphinxPub.bytes ++ (kemPk.bytes ++
      (ip.bytes ++ (port.bytes ++ (dhtPort.bytes ++ (ts.bytes ++ sig.bytes))))))))) := by
    have cut : bytes = bytes.take 1385 := (List.take_of_length_le (Nat.le_of_eq size)).symm
    have first : bytes.take 4 = magic := (Checked.slice_eq_ok headAt).symm.trans isMagic
    rw [cut, show 1385 = 1321 + 64 from rfl, Checked.take_arrayAt sigAt, show 1321 = 1313 + 8 from rfl, Checked.take_arrayAt tsAt,
      show 1313 = 1311 + 2 from rfl, Checked.take_arrayAt dhtPortAt, show 1311 = 1309 + 2 from rfl, Checked.take_arrayAt portAt,
      show 1309 = 1305 + 4 from rfl, Checked.take_arrayAt ipAt, show 1305 = 121 + kemPkLen from rfl, Checked.take_arrayAt kemPkAt,
      show 121 = 89 + 32 from rfl, Checked.take_arrayAt sphinxPubAt, show 89 = 57 + 32 from rfl, Checked.take_arrayAt linkPubAt,
      show 57 = 25 + 32 from rfl, Checked.take_arrayAt edPubAt, show 25 = 5 + 20 from rfl, Checked.take_arrayAt nodeIdAt,
      show 5 = 4 + 1 from rfl, Checked.take_byteAt versionAt, first, isVer]
    simp only [List.append_assoc, List.cons_append, List.nil_append]
  have encoded : ∀ {ε : Type}, (d.toBytes : Checked ε _) = .ok bytes := by
    intro ε
    rw [← Checked.ok.inj read, toBytes, whole]
    simp only [IpAddr.v4Bytes?, u16Le_u16OfLe, u64Le_u64OfLe]
  have checked := Checked.slice_eq_ok signedAt
  refine ⟨encoded, ⟨ip, ?_⟩, ⟨signed, ?_, ?_⟩, ?_⟩
  · rw [← Checked.ok.inj read]
  · rw [signingBytes, encoded, Checked.ok_bind, size, Checked.sub_of_le (by decide), Checked.ok_bind, checked]
    rfl
  · rw [← Checked.ok.inj read]
    exact genuine
  · rw [← Checked.ok.inj read]
    exact named

end Descriptor
end Nbf.Crypto
