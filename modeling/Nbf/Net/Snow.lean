import Nbf.Library.Octets

/-! The Noise crate, as a parameter.

`Snow` collects what `link.rs` calls in snow, for the one pattern it uses. The
ephemeral key that a message draws is an argument. `Snow.Lawful` is what the
crate documents of keys and messages, for honest users of it.
-/

set_option autoImplicit false

namespace Nbf.Net

open Nbf.Library

structure Snow where
  Ephemeral : Type
  HandshakeState : Type
  TransportState : Type
  /-- `Builder` with the local private key and the remote public key. -/
  buildInitiator : (localKey remoteKey : Octets 32) → Except String HandshakeState
  buildResponder : (localKey : Octets 32) → Except String HandshakeState
  /-- `write_message` of an empty payload. -/
  writeMessage : HandshakeState → Ephemeral → Except String (List UInt8 × HandshakeState)
  readMessage : HandshakeState → List UInt8 → Except String HandshakeState
  intoTransportMode : HandshakeState → Except String TransportState
  remoteStatic : HandshakeState → Option (Octets 32)
  transportWrite : TransportState → List UInt8 → Except String (List UInt8 × TransportState)
  transportRead : TransportState → List UInt8 → Except String (List UInt8 × TransportState)
  publicKey : Octets 32 → Octets 32
  /-- The ephemerals of the handshake a session comes from, the initiator's first. -/
  origin : TransportState → Ephemeral × Ephemeral
  transportRemote : TransportState → Option (Octets 32)

namespace Snow

variable (S : Snow)

def initiate (localKey remoteKey : Octets 32) (eph : S.Ephemeral) : Except String (List UInt8 × S.HandshakeState) := do
  let st ← S.buildInitiator localKey remoteKey
  S.writeMessage st eph

def respond (localKey : Octets 32) (msg : List UInt8) (eph : S.Ephemeral) : Except String (List UInt8 × S.HandshakeState) := do
  let st ← S.buildResponder localKey
  let st ← S.readMessage st msg
  S.writeMessage st eph

def finish (st : S.HandshakeState) (msg : List UInt8) : Except String S.TransportState := do
  let st ← S.readMessage st msg
  S.intoTransportMode st

/-- A message is read by the handshake it belongs to and no other. -/
structure Lawful : Prop where
  initiates : ∀ localKey remoteKey eph, ∃ msg st, S.initiate localKey remoteKey eph = .ok (msg, st)
  responds : ∀ localKey remoteKey eph msg st eph', S.initiate localKey (S.publicKey remoteKey) eph = .ok (msg, st) →
    ∃ msg' st' t, S.respond remoteKey msg eph' = .ok (msg', st') ∧ S.remoteStatic st' = some (S.publicKey localKey) ∧
      S.intoTransportMode st' = .ok t ∧ S.origin t = (eph, eph')
  /-- An answer that completes an attempt answers its first message. -/
  finish_only : ∀ localKey remoteKey eph msg st key first eph' msg' st' t,
    S.initiate localKey remoteKey eph = .ok (msg, st) → S.respond key first eph' = .ok (msg', st') →
      S.finish st msg' = .ok t → first = msg ∧ S.origin t = (eph, eph')
  /-- A first message completes no attempt. -/
  first_unfinished : ∀ localKey remoteKey eph msg st localKey' remoteKey' eph' msg' st' t,
    S.initiate localKey remoteKey eph = .ok (msg, st) → S.initiate localKey' remoteKey' eph' = .ok (msg', st') →
      S.finish st msg' ≠ .ok t
  /-- And no one answers an answer. -/
  second_unanswered : ∀ localKey first eph msg st localKey' eph' answer, S.respond localKey first eph = .ok (msg, st) →
    S.respond localKey' msg eph' ≠ .ok answer
  /-- The first messages of different attempts differ. -/
  first_once : ∀ localKey remoteKey eph msg st localKey' remoteKey' eph' st',
    S.initiate localKey remoteKey eph = .ok (msg, st) → S.initiate localKey' remoteKey' eph' = .ok (msg, st') → eph = eph'
  /-- The messages of this pattern fit in one fragment. -/
  short : ∀ st eph msg st', S.writeMessage st eph = .ok (msg, st') → msg.length ≤ 1024
  origin_write : ∀ t msg out t', S.transportWrite t msg = .ok (out, t') → S.origin t' = S.origin t
  origin_read : ∀ t msg out t', S.transportRead t msg = .ok (out, t') → S.origin t' = S.origin t

theorem Lawful.initiate_short {S : Snow} (laws : S.Lawful) {localKey remoteKey : Octets 32} {eph : S.Ephemeral} {msg : List UInt8}
    {st : S.HandshakeState} (made : S.initiate localKey remoteKey eph = .ok (msg, st)) : msg.length ≤ 1024 := by
  obtain ⟨_, -, wrote⟩ := except_bind_eq_ok.mp made
  exact laws.short _ _ _ _ wrote

theorem Lawful.respond_short {S : Snow} (laws : S.Lawful) {localKey : Octets 32} {eph : S.Ephemeral} {first msg : List UInt8}
    {st : S.HandshakeState} (made : S.respond localKey first eph = .ok (msg, st)) : msg.length ≤ 1024 := by
  obtain ⟨_, -, rest⟩ := except_bind_eq_ok.mp made
  obtain ⟨_, -, wrote⟩ := except_bind_eq_ok.mp rest
  exact laws.short _ _ _ _ wrote

/-- Which static key a handshake and a session are with. -/
structure LawfulStatics : Prop where
  initiator : ∀ localKey remoteKey st, S.buildInitiator localKey remoteKey = .ok st → S.remoteStatic st = some remoteKey
  written : ∀ st eph msg st', S.writeMessage st eph = .ok (msg, st') → S.remoteStatic st' = S.remoteStatic st
  read : ∀ st msg st' key, S.readMessage st msg = .ok st' → S.remoteStatic st = some key → S.remoteStatic st' = some key
  /-- A responder learns the key the initiator claims. -/
  learnt : ∀ localKey st msg st', S.buildResponder localKey = .ok st → S.readMessage st msg = .ok st' →
    ∃ key, S.remoteStatic st' = some key
  transport : ∀ st t, S.intoTransportMode st = .ok t → S.transportRemote t = S.remoteStatic st
  transport_write : ∀ t msg out t', S.transportWrite t msg = .ok (out, t') → S.transportRemote t' = S.transportRemote t
  transport_read : ∀ t msg out t', S.transportRead t msg = .ok (out, t') → S.transportRemote t' = S.transportRemote t

end Snow
end Nbf.Net
