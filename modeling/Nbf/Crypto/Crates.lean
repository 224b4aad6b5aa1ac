import Mathlib.Algebra.Group.Basic
import Nbf.Library.Octets

/-! The cryptographic crates, as parameters.

`Crates` collects the operations `nbf-crypto` calls in curve25519-dalek,
ml-kem, chacha20poly1305, hkdf, sha2 and ed25519-dalek. A random generator is a
state that each draw advances. `Crates.Lawful` is what these crates document.
-/

set_option autoImplicit false

namespace Nbf.Crypto

open Nbf.Library

def ctLen : Nat := 1088
def kemPkLen : Nat := 1184

structure Crates where
  /-- The random generator behind `impl CryptoRngCore`. -/
  Rng : Type
  fillBytes : (n : Nat) → Rng → Octets n × Rng
  Scalar : Type
  [scalarMul : CommMonoid Scalar]
  scalarRandom : Rng → Scalar × Rng
  scalarToBytes : Scalar → Octets 32
  fromBytesModOrder : Octets 32 → Scalar
  /-- `Scalar::from_hash` of a SHA-512 over these bytes. -/
  fromHash : List UInt8 → Scalar
  /-- `MontgomeryPoint(p) * s`, by its `u` coordinate. -/
  mulPoint : Octets 32 → Scalar → Octets 32
  /-- `MontgomeryPoint::mul_base`. -/
  mulBase : Scalar → Octets 32
  DecapsKey : Type
  kemGenerate : Rng → (DecapsKey × Octets kemPkLen) × Rng
  encapsulate : Octets kemPkLen → Rng → Option (Octets ctLen × Octets 32) × Rng
  decapsulate : DecapsKey → Octets ctLen → Option (Octets 32)
  /-- `Hkdf::<Sha256>::new(Some(salt), ikm).expand(info, ..)` into `n` bytes. -/
  hkdf : (ikm salt info : List UInt8) → (n : Nat) → Octets n
  sha256 : List UInt8 → Octets 32
  /-- ChaCha20-Poly1305 under key and nonce, with associated data and message. -/
  encrypt : Octets 32 → Octets 12 → (aad msg : List UInt8) → List UInt8
  decrypt : Octets 32 → Octets 12 → (aad ct : List UInt8) → Option (List UInt8)
  SigningKey : Type
  signingGenerate : Rng → SigningKey × Rng
  verifyingKey : SigningKey → Octets 32
  sign : SigningKey → List UInt8 → Octets 64
  /-- `VerifyingKey::from_bytes`, then `verify`. -/
  verify : (edPub : Octets 32) → List UInt8 → Octets 64 → Bool

instance (C : Crates) : CommMonoid C.Scalar := C.scalarMul

/-- Documented behaviour of the crates that agreement between origin and hops rests on. -/
structure Crates.Lawful (C : Crates) : Prop where
  /-- The encoding of a scalar is canonical: reading it back gives the scalar. -/
  scalar_canonical : ∀ s, C.fromBytesModOrder (C.scalarToBytes s) = s
  /-- A key pair that was generated together encapsulates and decapsulates the same secret. -/
  decap_encap : ∀ seed rng, ∃ ct ss,
    (C.encapsulate (C.kemGenerate seed).1.2 rng).1 = some (ct, ss) ∧
      C.decapsulate (C.kemGenerate seed).1.1 ct = some ss
  decrypt_encrypt : ∀ key nonce aad msg, C.decrypt key nonce aad (C.encrypt key nonce aad msg) = some msg
  /-- The Poly1305 tag. -/
  encrypt_length : ∀ key nonce aad msg, (C.encrypt key nonce aad msg).length = msg.length + 16
  verify_sign : ∀ key msg, C.verify (C.verifyingKey key) msg (C.sign key msg) = true

/-- What decrypts is 16 bytes longer than its plaintext, whoever made it. -/
def Crates.OpensShorter (C : Crates) : Prop :=
  ∀ key nonce aad ct msg, C.decrypt key nonce aad ct = some msg → ct.length = msg.length + 16

end Nbf.Crypto
