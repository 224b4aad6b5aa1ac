import Nbf.Library.TwoMessage
import Nbf.Net.Link

/-! Two links that open a session with each other.

The datagrams of a handshake are delivered in any order, each once. Other
datagrams of the peer, encrypted cells among them, may arrive at any time, as
long as they do not pass for a fragment. Every ephemeral is drawn once.
-/

set_option autoImplicit false

namespace Nbf.Net

open Nbf.Library Nbf.Library.TwoMessage Nbf.Crypto

structure Peers where
  key : Bool → Octets 32
  addr : Bool → SocketAddr

variable (S : Snow)

structure Pair where
  link : Bool → Link S
  /-- The handshake datagrams in flight, by destination. -/
  wire : List (Bool × List UInt8)
  drawn : List S.Ephemeral

inductive PairEvent where
  | act (x : Bool) (event : LinkEvent S)
  | deliver (x : Bool) (datagram : List UInt8) (eph : S.Ephemeral)
  | other (x : Bool) (datagram : List UInt8) (eph : S.Ephemeral)

inductive Noted (ε : Type) where
  | accepted (h : Shake ε)
  | completed (h : Shake ε)

def acceptedOf {ε : Type} (history : List (Noted ε)) : List (Shake ε) :=
  history.filterMap fun | .accepted h => some h | .completed _ => none

def completedOf {ε : Type} (history : List (Noted ε)) : List (Shake ε) :=
  history.filterMap fun | .completed h => some h | .accepted _ => none

variable {S}

namespace Pair

def start (S : Snow) (peers : Peers) : Pair S :=
  { link := fun x => (Link.bind S (peers.key x)).setPeerStatic (peers.addr !x) (S.publicKey (peers.key !x)),
    wire := [], drawn := [] }

/-- What a link does by itself, with fresh ephemerals, and with no wrong key for the other. -/
def Allowed (peers : Peers) (p : Pair S) (x : Bool) : LinkEvent S → Prop
  | .setPeerStatic addr key => addr = peers.addr (!x) → key = S.publicKey (peers.key !x)
  | .step _ eph => eph ∉ p.drawn
  | .refuse _ eph _ _ => eph ∉ p.drawn
  | .receive .. => False
  | .sendCell .. => True
  | .deadline _ => True
  | .handle => True

def drawnBy : LinkEvent S → List S.Ephemeral
  | .step _ eph => [eph]
  | .refuse _ eph _ _ => [eph]
  | .receive _ _ eph => [eph]
  | _ => []

def outgoing (peers : Peers) (x : Bool) (sent : Sent) : List (Bool × List UInt8) :=
  sent.hs.filterMap fun (dst, datagram) => if dst = peers.addr !x then some (!x, datagram) else none

section

variable [DecidableEq S.Ephemeral]

instance (peers : Peers) (p : Pair S) (x : Bool) (event : LinkEvent S) : Decidable (Allowed peers p x event) :=
  match event with
  | .setPeerStatic addr key => inferInstanceAs (Decidable (addr = peers.addr (!x) → key = S.publicKey (peers.key !x)))
  | .step _ eph => inferInstanceAs (Decidable (eph ∉ p.drawn))
  | .refuse _ eph _ _ => inferInstanceAs (Decidable (eph ∉ p.drawn))
  | .receive .. => inferInstanceAs (Decidable False)
  | .sendCell .. => inferInstanceAs (Decidable True)
  | .deadline _ => inferInstanceAs (Decidable True)
  | .handle => inferInstanceAs (Decidable True)

def step (peers : Peers) (p : Pair S) : PairEvent S → Option (Pair S)
  | .act x event =>
    if Allowed peers p x event then
      ((p.link x).step event).map fun (l, sent) =>
        { link := Function.update p.link x l, wire := p.wire ++ outgoing peers x sent, drawn := drawnBy event ++ p.drawn }
    else none
  | .deliver x datagram eph =>
    if (x, datagram) ∈ p.wire ∧ eph ∉ p.drawn then
      ((p.link x).step (.receive (peers.addr !x) datagram eph)).map fun (l, _) =>
        { link := Function.update p.link x l, wire := p.wire.erase (x, datagram), drawn := eph :: p.drawn }
    else none
  | .other x datagram eph =>
    if isFragment (datagram.take hsDgram) then none else
    ((p.link x).step (.receive (peers.addr !x) datagram eph)).map fun (l, _) => { p with link := Function.update p.link x l }

def Step (peers : Peers) (p : Pair S) (event : PairEvent S) (p' : Pair S) : Prop := p.step peers event = some p'

end

/-- The handshake, if any, that a delivery makes a link accept or complete. -/
def noted (peers : Peers) (p : Pair S) : PairEvent S → List (Noted S.Ephemeral)
  | .deliver x datagram eph =>
    match (p.link x).message? (peers.addr !x) datagram with
    | none => []
    | some msg =>
      match (p.link x).judge (peers.addr !x) msg eph with
      | .completes _ t => [.completed ⟨x, (S.origin t).1, (S.origin t).2⟩]
      | .accepts _ st =>
        match S.intoTransportMode st with
        | .ok t => [.accepted ⟨!x, (S.origin t).1, (S.origin t).2⟩]
        | .error _ => []
      | .ignored => []
  | _ => []

end Pair
end Nbf.Net
