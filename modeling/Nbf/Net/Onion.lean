import Nbf.Net.Relay

/-! The onion in both directions: the hops undo what the origin seals, and the
origin undoes what the hops seal. -/

set_option autoImplicit false

namespace Nbf.Net

open Nbf.Library Nbf.Crypto

variable {C : Crates}

/-- A reply after the hops with these keys, the farthest first, have sealed it. -/
def replyOnion (C : Crates) (keys : List (Octets 32)) (tag : Octets 16) (seq : UInt32) (msg : List UInt8) : List UInt8 :=
  keys.foldr (fun k payload => sealBwd C k tag seq payload) msg

variable (laws : C.Lawful)
include laws

theorem openOnion_sealOnion (key : Octets 32) (keys : List (Octets 32)) (tag : Octets 16) (seq : UInt32)
    (msg : List UInt8) : openOnion C key tag seq (sealOnion C (key :: keys) tag seq msg) =
      .ok (sealOnion C keys tag seq msg) := by
  rw [openOnion, sealOnion, List.foldr_cons, laws.open_seal]
  rfl

theorem length_sealOnion (keys : List (Octets 32)) (tag : Octets 16) (seq : UInt32) (msg : List UInt8) :
    (sealOnion C keys tag seq msg).length = msg.length + 16 * keys.length := by
  induction keys with
  | nil => rfl
  | cons key keys ih =>
    rw [sealOnion, List.foldr_cons, laws.length_seal, ← sealOnion, ih, List.length_cons]
    omega

theorem length_sealBwd (key : Octets 32) (tag : Octets 16) (seq : UInt32) (msg : List UInt8) :
    (sealBwd C key tag seq msg).length = msg.length + 16 := laws.length_seal ..

theorem length_replyOnion (keys : List (Octets 32)) (tag : Octets 16) (seq : UInt32) (msg : List UInt8) :
    (replyOnion C keys tag seq msg).length = msg.length + 16 * keys.length := by
  induction keys with
  | nil => rfl
  | cons key keys ih =>
    rw [replyOnion, List.foldr_cons, length_sealBwd laws, ← replyOnion, ih, List.length_cons]
    omega

theorem openBwdAll_replyOnion (keys : List (Octets 32)) (tag : Octets 16) (seq : UInt32) (msg : List UInt8) :
    openBwdAll C keys tag seq (replyOnion C keys tag seq msg) = .ok msg := by
  induction keys with
  | nil => rfl
  | cons key keys ih =>
    rw [openBwdAll, replyOnion, List.foldr_cons, openBwd, sealBwd, laws.open_seal, Checked.mapErr_ok, Checked.ok_bind]
    exact ih

omit laws

theorem length_aeadOpen (shorter : C.OpensShorter) {key : Octets 32} {nonce : Octets 12} {onion msg : List UInt8}
    (opened : aeadOpen C key nonce onion = .ok msg) : onion.length = msg.length + 16 := by
  unfold aeadOpen at opened
  cases decrypted : C.decrypt key nonce aad onion with
  | none =>
    rw [decrypted] at opened
    cases opened
  | some plain =>
    rw [decrypted] at opened
    rw [← Checked.ok.inj opened]
    exact shorter _ _ _ _ _ decrypted

theorem length_openOnion (shorter : C.OpensShorter) {key : Octets 32} {tag : Octets 16} {seq : UInt32} {onion msg : List UInt8}
    (opened : openOnion C key tag seq onion = .ok msg) : onion.length = msg.length + 16 :=
  length_aeadOpen shorter (Checked.mapErr_eq_ok.mp opened)

theorem length_openBwdAll (shorter : C.OpensShorter) {keys : List (Octets 32)} {tag : Octets 16} {seq : UInt32}
    {onion msg : List UInt8} (opened : openBwdAll C keys tag seq onion = .ok msg) :
    onion.length = msg.length + 16 * keys.length := by
  induction keys generalizing onion with
  | nil => rw [Checked.ok.inj opened]; rfl
  | cons key keys ih =>
    obtain ⟨inner, layer, rest⟩ := Checked.bind_eq_ok.mp opened
    have size : onion.length = inner.length + 16 := length_aeadOpen shorter (Checked.mapErr_eq_ok.mp layer)
    rw [size, ih rest, List.length_cons]
    omega

end Nbf.Net
