import Nbf.Crypto.Transparent

/-! Descriptors and the bytes they are published as, one for one. -/

set_option autoImplicit false

namespace Nbf.Crypto.Descriptor

open Nbf.Library

variable {C : Crates}

theorem signingBytes_eq {ε : Type} {d : Descriptor} {bytes : List UInt8} (encoded : (d.toBytes : Checked ε _) = .ok bytes)
    (size : bytes.length = descLen) : (d.signingBytes : Checked ε _) = .ok (bytes.take (descLen - 64)) := by
  rw [signingBytes, encoded, Checked.ok_bind, size, Checked.sub_of_le (by decide)]
  rfl

/-- The signature of what is accepted verifies over the bytes themselves. -/
theorem fromSignedBytes_genuine {bytes : List UInt8} {d : Descriptor} (read : fromSignedBytes C bytes = .ok d) :
    C.verify d.edPub (bytes.take (descLen - 64)) d.sig = true := by
  have size := fromSignedBytes_length read
  obtain ⟨encoded, verified⟩ := fromSignedBytes_eq_ok (ε := CryptoError) read
  obtain ⟨signing, signed, genuine⟩ := verified.signed
  rw [signingBytes_eq encoded size] at signed
  rw [Checked.ok.inj signed]
  exact genuine

/-- What is accepted is written as it was read and has been checked; what would pass the check, like
every descriptor that a node signs, is read back as it was written. -/
theorem fromSignedBytes_toBytes_bijective
    (verifies : ∀ key msg, C.verify (C.verifyingKey key) msg (C.sign key msg) = true) :
    (∀ bytes d, fromSignedBytes C bytes = .ok d →
      (d.toBytes : Checked CryptoError _) = .ok bytes ∧ C.verify d.edPub (bytes.take 1321) d.sig = true ∧
        d.nodeId = (C.sha256 d.edPub.bytes).take 20 (by decide)) ∧
    (∀ d octets signing, d.cellAddr.ip = .v4 octets → nodeIdFromEdPub C d.edPub = d.nodeId →
      (d.signingBytes : Checked CryptoError _) = .ok signing → C.verify d.edPub signing d.sig = true →
      ∃ bytes, (d.toBytes : Checked CryptoError _) = .ok bytes ∧ fromSignedBytes C bytes = .ok d) ∧
    ∀ (id : NodeIdentity C) cellAddr dhtPort nowUnix d,
      (sign id cellAddr dhtPort nowUnix : Checked CryptoError _) = .ok d →
      ∃ bytes, (d.toBytes : Checked CryptoError _) = .ok bytes ∧ fromSignedBytes C bytes = .ok d := by
  refine ⟨?read, ?written, ?signed⟩
  case read =>
    intro bytes d read
    obtain ⟨encoded, verified⟩ := fromSignedBytes_eq_ok (ε := CryptoError) read
    exact ⟨encoded, fromSignedBytes_genuine read, verified.named.symm⟩
  case written =>
    intro d octets signing v4 named signed genuine
    have verified : d.Verified C := ⟨⟨octets, v4⟩, ⟨signing, signed, genuine⟩, named⟩
    obtain ⟨bytes, encoded, -, back⟩ := fromSignedBytes_toBytes (ε := CryptoError) verified
    exact ⟨bytes, encoded, back⟩
  case signed =>
    intro id cellAddr dhtPort nowUnix d signed
    have signedBy : SignedBy id d := ⟨cellAddr, dhtPort, nowUnix, signed⟩
    obtain ⟨bytes, encoded, -, back⟩ := fromSignedBytes_toBytes (ε := CryptoError) (signedBy.verified_of verifies)
    exact ⟨bytes, encoded, back⟩

/-- The crates that hide nothing verify what they sign, so a node's descriptor survives the wire. -/
theorem fromSignedBytes_toBytes_transparent : ∃ bytes,
    ((Transparent.descriptor 1 9100).toBytes : Checked CryptoError _) = .ok bytes ∧
      fromSignedBytes Transparent.crates bytes = .ok (Transparent.descriptor 1 9100) := by
  obtain ⟨cellAddr, dhtPort, nowUnix, signed⟩ := Transparent.descriptor_signed 1 9100
  exact (fromSignedBytes_toBytes_bijective Transparent.lawful.verify_sign).2.2 _ cellAddr dhtPort nowUnix _ signed

end Nbf.Crypto.Descriptor
