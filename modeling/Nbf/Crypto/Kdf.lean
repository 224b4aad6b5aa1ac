import Nbf.Crypto.Crates

/-! Key derivation, nonces and the AEAD with its fixed associated data
(`kdf.rs`), and the KEM adapter (`kem.rs`). -/

set_option autoImplicit false

namespace Nbf.Crypto

open Nbf.Library

inductive CryptoError where
  | badLength (len : Nat)
  | aead
  | kem
  | noise (reason : String)
  | sphinx
  | descriptor
  | ed25519
  deriving DecidableEq, Repr

def CryptoError.toString : CryptoError → String
  | badLength len => "độ dài dữ liệu không đúng: " ++ Nat.repr len
  | aead => "AEAD mở thất bại (sai key hoặc dữ liệu hỏng)"
  | kem => "ML-KEM thất bại"
  | noise reason => "Noise thất bại: " ++ reason
  | sphinx => "header Sphinx không hợp lệ"
  | descriptor => "descriptor không hợp lệ"
  | ed25519 => "chữ ký Ed25519 sai"

def ascii (s : String) : List UInt8 := s.toList.map fun c => UInt8.ofNat c.toNat

def infoHdr : List UInt8 := ascii "nbf/hdr/v1"
def infoTraffic : List UInt8 := ascii "nbf/traffic/v1"
def aad : List UInt8 := ascii "nbf"

variable (C : Crates)

def deriveHdrKey (ssX : Octets 32) (tag : Octets 16) : Octets 32 :=
  C.hkdf ssX.bytes tag.bytes infoHdr 32

/-- `(k_fwd, k_bwd)` of one hop, from the X25519 and the ML-KEM secret. -/
def deriveTrafficKeys (ssX ssKem : Octets 32) (tag : Octets 16) : Octets 32 × Octets 32 :=
  let v := C.hkdf (ssX.bytes ++ ssKem.bytes) tag.bytes infoTraffic 64
  (v.take 32 (by decide), v.drop 32)

/-- The nonce of a header layer: the hop count its hop sees enters it. -/
def hdrNonce (tag : Octets 16) (nField : UInt8) : Octets 12 :=
  (C.sha256 (tag.bytes ++ ascii "hdr" ++ [nField])).take 12 (by decide)

def relayNonce (tag : Octets 16) (dir : UInt8) (seq : UInt32) : Octets 12 :=
  (C.sha256 (tag.bytes ++ [dir] ++ u32Le seq)).take 12 (by decide)

def aeadSeal (key : Octets 32) (nonce : Octets 12) (plaintext : List UInt8) : List UInt8 :=
  C.encrypt key nonce aad plaintext

def aeadOpen (key : Octets 32) (nonce : Octets 12) (ciphertext : List UInt8) :
    Checked CryptoError (List UInt8) :=
  .ofOption .aead (C.decrypt key nonce aad ciphertext)

def kemEncap (pk : Octets kemPkLen) (rng : C.Rng) :
    Checked CryptoError (Octets ctLen × Octets 32) × C.Rng :=
  let out := C.encapsulate pk rng
  (.ofOption .kem out.1, out.2)

def kemDecap (sk : C.DecapsKey) (ct : Octets ctLen) : Checked CryptoError (Octets 32) :=
  .ofOption .kem (C.decapsulate sk ct)

variable {C}

namespace Crates.Lawful

variable (laws : C.Lawful)
include laws

theorem open_seal (key : Octets 32) (nonce : Octets 12) (msg : List UInt8) :
    aeadOpen C key nonce (aeadSeal C key nonce msg) = .ok msg := by
  rw [aeadOpen, aeadSeal, laws.decrypt_encrypt, Checked.ofOption_some]

theorem length_seal (key : Octets 32) (nonce : Octets 12) (msg : List UInt8) :
    (aeadSeal C key nonce msg).length = msg.length + 16 := laws.encrypt_length _ _ _ _

theorem kem_agree (seed rng : C.Rng) : ∃ ct ss,
    (kemEncap C (C.kemGenerate seed).1.2 rng).1 = .ok (ct, ss) ∧
      kemDecap C (C.kemGenerate seed).1.1 ct = .ok ss := by
  obtain ⟨ct, ss, encap, decap⟩ := laws.decap_encap seed rng
  exact ⟨ct, ss, congrArg (Checked.ofOption CryptoError.kem) encap,
    congrArg (Checked.ofOption CryptoError.kem) decap⟩

end Crates.Lawful
end Nbf.Crypto
