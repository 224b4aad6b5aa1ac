import Nbf.Net.Snow

/-! A lawful instance of the Noise crate that hides nothing: public and private
keys are the same, messages say in clear what they belong to. It serves to run
the link on concrete inputs. -/

set_option autoImplicit false

namespace Nbf.Net.PlainNoise

open Nbf.Library

abbrev Key := Octets 32

inductive HandshakeState where
  | initiator (own remote : Key)
  | waiting (own remote : Key) (first : UInt8)
  | responder (own : Key)
  | heard (own remote : Key) (first : UInt8)
  | complete (remote : Key) (first second : UInt8)

structure TransportState where
  remote : Key
  first : UInt8
  second : UInt8

/-- `[1][ephemeral][initiator][responder]`. -/
def firstMsg (own remote : Key) (first : UInt8) : List UInt8 := 1 :: first :: (own.bytes ++ remote.bytes)

/-- `[2][ephemeral][ephemeral][initiator][responder]`. -/
def secondMsg (initiator responder : Key) (first second : UInt8) : List UInt8 :=
  2 :: first :: second :: (initiator.bytes ++ responder.bytes)

def writeMessage : HandshakeState → UInt8 → Except String (List UInt8 × HandshakeState)
  | .initiator own remote, eph => .ok (firstMsg own remote eph, .waiting own remote eph)
  | .heard own remote first, eph => .ok (secondMsg remote own first eph, .complete remote first eph)
  | _, _ => .error "state error: not my turn to write"

def readMessage : HandshakeState → List UInt8 → Except String HandshakeState
  | .responder own, 1 :: first :: keys =>
    if fits : keys.length = 64 ∧ keys.drop 32 = own.bytes then .ok (.heard own ⟨keys.take 32, by simp [fits.1]⟩ first)
    else .error "decrypt error"
  | .waiting own remote first, 2 :: first' :: second :: keys =>
    if first' = first ∧ keys = own.bytes ++ remote.bytes then .ok (.complete remote first second) else .error "decrypt error"
  | _, _ => .error "decrypt error"

def snow : Snow where
  Ephemeral := UInt8
  HandshakeState := HandshakeState
  TransportState := TransportState
  buildInitiator own remote := .ok (.initiator own remote)
  buildResponder own := .ok (.responder own)
  writeMessage := writeMessage
  readMessage := readMessage
  intoTransportMode
    | .complete remote first second => .ok ⟨remote, first, second⟩
    | _ => .error "state error: handshake not finished"
  remoteStatic
    | .initiator _ remote => some remote
    | .waiting _ remote _ => some remote
    | .responder _ => none
    | .heard _ remote _ => some remote
    | .complete remote _ _ => some remote
  transportWrite t msg := .ok (msg ++ List.replicate 16 0, t)
  transportRead t data := if 16 ≤ data.length then .ok (data.take (data.length - 16), t) else .error "decrypt error"
  publicKey key := key
  origin t := (t.first, t.second)
  transportRemote t := some t.remote

instance : DecidableEq snow.Ephemeral := inferInstanceAs (DecidableEq UInt8)

theorem initiate_ok {own remote : Key} {eph : UInt8} {msg : List UInt8} {st : HandshakeState}
    (made : snow.initiate own remote eph = .ok (msg, st)) : msg = firstMsg own remote eph ∧ st = .waiting own remote eph := by
  cases made
  exact ⟨rfl, rfl⟩

theorem readMessage_first (own remote : Key) (first : UInt8) :
    readMessage (.responder own) (firstMsg remote own first) = .ok (.heard own remote first) := by
  -- The keys fill what is behind the two head bytes.
  have fits : (remote.bytes ++ own.bytes).length = 64 ∧ (remote.bytes ++ own.bytes).drop 32 = own.bytes :=
    ⟨by simp, List.drop_left' remote.size⟩
  simp only [firstMsg, readMessage, dif_pos fits]
  congr 2
  exact Octets.ext (List.take_left' remote.size)

theorem readMessage_responder {own : Key} {msg : List UInt8} {st : HandshakeState}
    (read : readMessage (.responder own) msg = .ok st) :
    ∃ remote first, msg = firstMsg remote own first ∧ st = .heard own remote first := by
  unfold readMessage at read
  split at read
  next own' first keys same =>
    cases same
    split at read
    next fits =>
      cases read
      refine ⟨_, first, ?_, rfl⟩
      rw [firstMsg, ← fits.2, List.take_append_drop]
    next => cases read
  next own' remote first first' second keys same => cases same
  next => cases read

theorem readMessage_waiting {own remote : Key} {first : UInt8} {msg : List UInt8} {st : HandshakeState}
    (read : readMessage (.waiting own remote first) msg = .ok st) :
    ∃ second, msg = secondMsg own remote first second ∧ st = .complete remote first second := by
  unfold readMessage at read
  split at read
  next own' first keys same => cases same
  next own' remote' first' first'' second keys same =>
    cases same
    split at read
    next fits =>
      cases read
      exact ⟨second, by rw [secondMsg, fits.1, fits.2], rfl⟩
    next => cases read
  next => cases read

theorem finish_waiting {own remote : Key} {first : UInt8} {msg : List UInt8} {t : TransportState}
    (finished : snow.finish (.waiting own remote first) msg = .ok t) :
    ∃ second, msg = secondMsg own remote first second ∧ t = ⟨remote, first, second⟩ := by
  obtain ⟨st, read, into⟩ := except_bind_eq_ok.mp finished
  obtain ⟨second, same, rfl⟩ := readMessage_waiting (show readMessage _ msg = .ok st from read)
  cases into
  exact ⟨second, same, rfl⟩

theorem respond_eq (own remote : Key) (first eph : UInt8) :
    snow.respond own (firstMsg remote own first) eph = .ok (secondMsg remote own first eph, .complete remote first eph) :=
  except_bind_eq_ok.mpr ⟨_, rfl, except_bind_eq_ok.mpr ⟨_, readMessage_first own remote first, rfl⟩⟩

theorem respond_ok {own : Key} {msg out : List UInt8} {eph : UInt8} {st : HandshakeState}
    (answer : snow.respond own msg eph = .ok (out, st)) :
    ∃ remote first, msg = firstMsg remote own first ∧ out = secondMsg remote own first eph := by
  obtain ⟨_, built, rest⟩ := except_bind_eq_ok.mp answer
  cases built
  obtain ⟨st₁, read, wrote⟩ := except_bind_eq_ok.mp rest
  obtain ⟨remote, first, rfl, rfl⟩ := readMessage_responder read
  cases wrote
  exact ⟨remote, first, rfl, rfl⟩

theorem writeMessage_short {st st' : HandshakeState} {eph : UInt8} {msg : List UInt8}
    (wrote : writeMessage st eph = .ok (msg, st')) : msg.length ≤ 1024 := by
  unfold writeMessage at wrote
  split at wrote
  · cases wrote
    simp [firstMsg]
  · cases wrote
    simp [secondMsg]
  · cases wrote

theorem lawful : snow.Lawful where
  initiates own remote eph := ⟨_, _, rfl⟩
  responds own remote eph msg st eph' made := by
    obtain ⟨rfl, -⟩ := initiate_ok made
    exact ⟨_, _, _, respond_eq remote own eph eph', rfl, rfl, rfl⟩
  finish_only own remote eph msg st key first eph' msg' st' t made answer finished := by
    obtain ⟨rfl, rfl⟩ := initiate_ok made
    obtain ⟨remote', first', rfl, rfl⟩ := respond_ok answer
    obtain ⟨second, same, rfl⟩ := finish_waiting finished
    obtain ⟨firsts, rest⟩ := List.cons.inj (List.cons.inj same).2
    obtain ⟨seconds, keys⟩ := List.cons.inj rest
    exact ⟨congrArg (1 :: ·) (congrArg₂ List.cons firsts keys), congrArg (eph, ·) seconds.symm⟩
  first_unfinished own remote eph msg st own' remote' eph' msg' st' t made other finished := by
    obtain ⟨rfl, rfl⟩ := initiate_ok made
    obtain ⟨rfl, -⟩ := initiate_ok other
    obtain ⟨second, same, -⟩ := finish_waiting finished
    exact absurd (List.cons.inj same).1 (by decide)
  second_unanswered own first eph msg st own' eph' answer made again := by
    obtain ⟨_, _, -, rfl⟩ := respond_ok made
    obtain ⟨_, _, same, -⟩ := respond_ok again
    exact absurd (List.cons.inj same).1 (by decide)
  first_once own remote eph msg st own' remote' eph' st' made made' := by
    obtain ⟨rfl, -⟩ := initiate_ok made
    obtain ⟨same, -⟩ := initiate_ok made'
    exact (List.cons.inj (List.cons.inj same).2).1
  short _ _ _ _ wrote := writeMessage_short wrote
  origin_write t msg out t' wrote := by
    cases wrote
    rfl
  origin_read t msg out t' read := by
    simp only [snow] at read
    split at read
    · cases read
      rfl
    · cases read

theorem lawfulStatics : snow.LawfulStatics where
  initiator own remote st built := by
    cases built
    rfl
  written st eph msg st' wrote := by
    cases st with
    | initiator | heard =>
      cases wrote
      rfl
    | waiting | responder | complete => cases wrote
  read st msg st' key read known := by
    cases st with
    | responder => cases known
    | waiting own remote first =>
      obtain ⟨second, -, rfl⟩ := readMessage_waiting read
      exact known
    | initiator | heard | complete =>
      cases read
  learnt own st msg st' built read := by
    cases built
    obtain ⟨remote, first, -, rfl⟩ := readMessage_responder read
    exact ⟨remote, rfl⟩
  transport st t into := by
    cases st with
    | complete =>
      cases into
      rfl
    | initiator | waiting | responder | heard => cases into
  transport_write t msg out t' wrote := by
    cases wrote
    rfl
  transport_read t msg out t' read := by
    simp only [snow] at read
    split at read
    · cases read
      rfl
    · cases read

end Nbf.Net.PlainNoise
