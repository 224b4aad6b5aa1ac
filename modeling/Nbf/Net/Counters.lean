import Nbf.Net.Snow

/-! What a session counts.

A session numbers what it writes and what it reads, and reads only what the other
side wrote at the number it is at.
-/

set_option autoImplicit false

namespace Nbf.Net

open Nbf.Library

/-- What tells a handshake from all others: the static keys and the ephemerals, the initiator's first. -/
abbrev Handshake (S : Snow) : Type := (Octets 32 × Octets 32) × S.Ephemeral × S.Ephemeral

/-- Which side of which handshake a session is, and what it counts. -/
structure Counters (S : Snow) where
  /-- The static keys of the handshake, the initiator's first. -/
  statics : S.TransportState → Octets 32 × Octets 32
  initiator : S.TransportState → Bool
  sent : S.TransportState → Nat
  received : S.TransportState → Nat

variable {S : Snow}

namespace Counters

variable (K : Counters S)

def handshake (t : S.TransportState) : Handshake S := (K.statics t, S.origin t)

def Written (handshake : Handshake S) (initiator : Bool) (n : Nat) (msg out : List UInt8) : Prop :=
  ∃ t t', K.handshake t = handshake ∧ K.initiator t = initiator ∧ K.sent t = n ∧ S.transportWrite t msg = .ok (out, t')

/-- `u` is the other side of the handshake of `t`, and expects what `t` writes next. -/
structure Matching (t u : S.TransportState) : Prop where
  handshake : K.handshake u = K.handshake t
  initiator : K.initiator u = !K.initiator t
  counter : K.received u = K.sent t

/-- The crate's `TransportState`: an implicit counter for each direction. -/
structure Lawful : Prop where
  write : ∀ t msg out t', S.transportWrite t msg = .ok (out, t') → K.handshake t' = K.handshake t ∧
    K.initiator t' = K.initiator t ∧ K.sent t' = K.sent t + 1 ∧ K.received t' = K.received t ∧ out.length = msg.length + 16
  read : ∀ u data msg u', S.transportRead u data = .ok (msg, u') → K.handshake u' = K.handshake u ∧
    K.initiator u' = K.initiator u ∧ K.sent u' = K.sent u ∧ K.received u' = K.received u + 1
  /-- The other side reads the message it expects next. -/
  accepts : ∀ u initiator msg out, K.Written (K.handshake u) initiator (K.received u) msg out → K.initiator u = (!initiator) →
    ∃ u', S.transportRead u out = .ok (msg, u')
  /-- And no other message of the session. -/
  expects : ∀ u initiator n msg out msg' u', K.Written (K.handshake u) initiator n msg out → K.initiator u = (!initiator) →
    S.transportRead u out = .ok (msg', u') → n = K.received u

end Counters

end Nbf.Net
