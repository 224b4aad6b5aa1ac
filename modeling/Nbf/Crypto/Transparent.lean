import Mathlib.Data.UInt
import Nbf.Crypto.SphinxRoute

/-! A lawful instance of the crates that hides nothing: encryption appends a tag
of nonce and key, secrets are single bytes, hashing reverses and cuts. It serves
to run the model on concrete inputs. -/

set_option autoImplicit false

namespace Nbf.Crypto.Transparent

open Nbf.Library

def fit (n : Nat) (bytes : List UInt8) : Octets n :=
  ⟨(bytes ++ List.replicate n 0).take n, by simp⟩

def head (a : List UInt8) : UInt8 := a.headD 0

@[simp] theorem head_fit (n : Nat) (byte : UInt8) (rest : List UInt8) :
    head (fit (n + 1) (byte :: rest)).bytes = byte := rfl

def mac (key : Octets 32) (nonce : Octets 12) : List UInt8 := nonce.bytes ++ key.bytes.take 4

@[simp] theorem length_mac (key : Octets 32) (nonce : Octets 12) : (mac key nonce).length = 16 := by
  simp [mac]

def crates : Crates where
  Rng := UInt8
  fillBytes n rng := (.replicate n rng, rng + 1)
  Scalar := UInt8
  scalarMul := UInt8.instCommMonoid
  scalarRandom rng := (rng, rng + 1)
  scalarToBytes s := fit 32 [s]
  fromBytesModOrder a := head a.bytes
  fromHash bytes := head bytes
  mulPoint p s := ⟨p.bytes.modify 0 (· * s), by simp⟩
  mulBase s := fit 32 [s]
  DecapsKey := UInt8
  kemGenerate rng := ((rng, fit kemPkLen [rng]), rng + 1)
  encapsulate pk rng := (some (fit ctLen [rng], fit 32 [head pk.bytes + rng]), rng + 1)
  decapsulate sk ct := some (fit 32 [sk + head ct.bytes])
  hkdf ikm salt info n := fit n (ikm ++ salt ++ info)
  sha256 bytes := fit 32 bytes.reverse
  encrypt key nonce _ msg := msg ++ mac key nonce
  decrypt key nonce _ ct :=
    if 16 ≤ ct.length ∧ ct.drop (ct.length - 16) = mac key nonce then some (ct.take (ct.length - 16)) else none
  SigningKey := UInt8
  signingGenerate rng := (rng, rng + 1)
  verifyingKey key := .replicate 32 key
  sign key _ := .replicate 64 key
  verify edPub _ sig := sig.bytes = List.replicate 64 (head edPub.bytes)

theorem lawful : crates.Lawful where
  scalar_canonical s := head_fit 31 s []
  decap_encap seed rng := ⟨_, _, rfl, rfl⟩
  decrypt_encrypt key nonce aad msg := by
    have size : (msg ++ mac key nonce).length - 16 = msg.length := by simp
    simp only [crates, size, List.drop_left, List.take_left]
    simp
  encrypt_length key nonce aad msg := by simp [crates]
  verify_sign _ _ := decide_eq_true rfl

theorem opensShorter : crates.OpensShorter := by
  intro key nonce aad ct msg decrypted
  simp only [crates] at decrypted
  split at decrypted
  next fits =>
    rw [← Option.some.inj decrypted, List.length_take]
    have := fits.1
    omega
  next => cases decrypted

theorem take_relayNonce (tag : Octets 16) (dir : UInt8) (seq : UInt32) :
    (relayNonce crates tag dir seq).bytes.take 4 = (u32Le seq).reverse := by
  have backwards : (tag.bytes ++ [dir] ++ u32Le seq).reverse = (u32Le seq).reverse ++ (dir :: tag.bytes.reverse) := by simp
  have shape : (relayNonce crates tag dir seq).bytes =
      (((tag.bytes ++ [dir] ++ u32Le seq).reverse ++ List.replicate 32 0).take 32).take 12 := rfl
  rw [shape, backwards, List.take_take, List.take_take, List.append_assoc]
  exact List.take_left' (by simp)

theorem relayNonce_injective (tag : Octets 16) (dir : UInt8) : Function.Injective (relayNonce crates tag dir) := by
  intro seq seq' same
  have numbers := take_relayNonce tag dir seq
  rw [same, take_relayNonce] at numbers
  rw [← u32OfLe_u32Le seq, ← List.reverse_injective numbers, u32OfLe_u32Le]

def identity (seed : UInt8) : NodeIdentity crates := (NodeIdentity.random crates seed).1

theorem identity_generated (seed : UInt8) : (identity seed).Generated := ⟨seed, rfl⟩

def localhost (port : UInt16) : SocketAddr := ⟨.v4 loopback, port⟩

def descriptor (seed : UInt8) (port : UInt16) : Descriptor :=
  let id := identity seed
  { nodeId := id.nodeId, edPub := id.edPub, linkPub := id.linkPub, sphinxPub := id.sphinxPub,
    kemPk := id.kemPk, cellAddr := localhost port, dhtPort := port + 1, ts := 0, sig := .replicate 64 seed }

def dated (seed : UInt8) (port : UInt16) (ts : UInt64) : Descriptor := { descriptor seed port with ts }

theorem dated_signed (seed : UInt8) (port : UInt16) (ts : UInt64) : Descriptor.SignedBy (identity seed) (dated seed port ts) := by
  refine ⟨localhost port, port + 1, ts, ?_⟩
  simp only [Descriptor.sign, Descriptor.signingBytes, Descriptor.toBytes, localhost, IpAddr.v4Bytes?,
    Checked.ok_bind]
  rw [Checked.sub_of_le (by simp; omega)]
  rfl

theorem descriptor_signed (seed : UInt8) (port : UInt16) : Descriptor.SignedBy (identity seed) (descriptor seed port) :=
  dated_signed seed port 0

def pairIds : List (NodeIdentity crates) := [identity 1, identity 20]
def pairRoute : List Descriptor := [descriptor 1 9100, descriptor 20 9101]

theorem pair_honest : HonestRoute pairIds pairRoute where
  generated := by
    simp only [pairIds, List.forall_mem_cons]
    exact ⟨identity_generated 1, identity_generated 20, by simp⟩
  signed := .cons (descriptor_signed 1 9100) (.cons (descriptor_signed 20 9101) .nil)
  nonempty := by decide
  short := by decide
  inner := by decide

end Nbf.Crypto.Transparent
