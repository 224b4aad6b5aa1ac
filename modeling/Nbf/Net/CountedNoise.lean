import Nbf.Net.Counters
import Nbf.Net.Pair
import Nbf.Net.PlainNoise

/-! `PlainNoise` with the counters of a session: a ciphertext is the plaintext and
a tag of session, direction and number. -/

set_option autoImplicit false

namespace Nbf.Net.CountedNoise

open Nbf.Library Nbf.Crypto

export PlainNoise (Key firstMsg secondMsg)

structure HandshakeState where
  own : Key
  state : PlainNoise.HandshakeState
  initiator : Bool

structure TransportState where
  own : Key
  remote : Key
  first : UInt8
  second : UInt8
  initiator : Bool
  sent : Nat
  received : Nat

def limit : Nat := 2 ^ 64 - 1

def mac (first second : UInt8) (initiator : Bool) (n : Nat) : List UInt8 :=
  u64Le (UInt64.ofNat n) ++ [first, second, if initiator then 1 else 0, 0, 0, 0, 0, 0]

@[simp] theorem length_mac (first second : UInt8) (initiator : Bool) (n : Nat) : (mac first second initiator n).length = 16 := by
  simp [mac]

def writeMessage (st : HandshakeState) (eph : UInt8) : Except String (List UInt8 × HandshakeState) := do
  let (msg, state) ← PlainNoise.writeMessage st.state eph
  return (msg, { st with state })

def readMessage (st : HandshakeState) (msg : List UInt8) : Except String HandshakeState := do
  let state ← PlainNoise.readMessage st.state msg
  return { st with state }

def snow : Snow where
  Ephemeral := UInt8
  HandshakeState := HandshakeState
  TransportState := TransportState
  buildInitiator own remote := .ok ⟨own, .initiator own remote, true⟩
  buildResponder own := .ok ⟨own, .responder own, false⟩
  writeMessage := writeMessage
  readMessage := readMessage
  intoTransportMode
    | ⟨own, .complete remote first second, initiator⟩ => .ok ⟨own, remote, first, second, initiator, 0, 0⟩
    | _ => .error "state error: handshake not finished"
  remoteStatic st := PlainNoise.snow.remoteStatic st.state
  transportWrite t msg :=
    if t.sent < limit then .ok (msg ++ mac t.first t.second t.initiator t.sent, { t with sent := t.sent + 1 })
    else .error "state error: nonce exhausted"
  transportRead u data :=
    if 16 ≤ data.length ∧ data.drop (data.length - 16) = mac u.first u.second (!u.initiator) u.received ∧ u.received < limit then
      .ok (data.take (data.length - 16), { u with received := u.received + 1 })
    else .error "decrypt error"
  publicKey key := key
  origin t := (t.first, t.second)
  transportRemote t := some t.remote

instance : DecidableEq snow.Ephemeral := inferInstanceAs (DecidableEq UInt8)

def counters : Counters snow where
  statics t := if t.initiator then (t.own, t.remote) else (t.remote, t.own)
  initiator := TransportState.initiator
  sent := TransportState.sent
  received := TransportState.received

theorem transportWrite_ok {t t' : TransportState} {msg out : List UInt8} (wrote : snow.transportWrite t msg = .ok (out, t')) :
    t.sent < limit ∧ out = msg ++ mac t.first t.second t.initiator t.sent ∧ t' = { t with sent := t.sent + 1 } := by
  simp only [snow] at wrote
  split at wrote
  next within =>
    cases wrote
    exact ⟨within, rfl, rfl⟩
  next => cases wrote

theorem mac_number {first second first' second' : UInt8} {side side' : Bool} {n m : Nat} (within : n < limit) (within' : m < limit)
    (same : mac first second side n = mac first' second' side' m) : n = m := by
  have numbers := congrArg (leValue ∘ List.take 8) same
  simp only [mac, u64Le, Function.comp_apply, List.take_left' (length_leBytes _ _), leValue_leBytes, UInt64.toNat_ofNat'] at numbers
  simp only [limit] at within within'
  omega

theorem counters_lawful : counters.Lawful where
  write t msg out t' wrote := by
    obtain ⟨-, rfl, rfl⟩ := transportWrite_ok wrote
    exact ⟨rfl, rfl, rfl, rfl, by rw [List.length_append, length_mac]⟩
  read u data msg u' read := by
    simp only [snow] at read
    split at read
    · cases read
      exact ⟨rfl, rfl, rfl, rfl⟩
    · cases read
  accepts u initiator msg out written other := by
    obtain ⟨t, t', same, rfl, number, wrote⟩ := written
    obtain ⟨within, rfl, -⟩ := transportWrite_ok wrote
    obtain ⟨first, second⟩ := Prod.mk.inj (Prod.mk.inj same).2
    have size : (msg ++ mac t.first t.second t.initiator t.sent).length - 16 = msg.length := by simp
    have side : t.initiator = !u.initiator := Bool.eq_not.mpr fun same => by simp [counters, ← same] at other
    refine ⟨{ u with received := u.received + 1 }, ?_⟩
    simp only [snow, size, List.drop_left, List.take_left]
    rw [if_pos]
    have reached : t.sent = u.received := number
    refine ⟨by simp, ?_, reached ▸ within⟩
    rw [first, second, side, reached]
  expects u initiator n msg out msg' u' written other read := by
    obtain ⟨t, t', -, -, rfl, wrote⟩ := written
    obtain ⟨within, rfl, -⟩ := transportWrite_ok wrote
    have size : (msg ++ mac t.first t.second t.initiator t.sent).length - 16 = msg.length := by simp
    simp only [snow, size, List.drop_left, List.take_left] at read
    split at read
    next fits => exact mac_number within fits.2.2 fits.2.1
    next => cases read

/-! The handshake is that of `PlainNoise`, with the side it is of. -/

theorem initiate_ok {own remote : Key} {eph : UInt8} {msg : List UInt8} {st : HandshakeState}
    (made : snow.initiate own remote eph = .ok (msg, st)) :
    PlainNoise.snow.initiate own remote eph = .ok (msg, st.state) ∧ st.initiator = true := by
  cases made
  exact ⟨rfl, rfl⟩

theorem respond_ok {own : Key} {msg out : List UInt8} {eph : UInt8} {st : HandshakeState}
    (answer : snow.respond own msg eph = .ok (out, st)) :
    PlainNoise.snow.respond own msg eph = .ok (out, st.state) ∧ st.initiator = false := by
  obtain ⟨_, built, rest⟩ := except_bind_eq_ok.mp answer
  cases built
  obtain ⟨st₁, read, wrote⟩ := except_bind_eq_ok.mp rest
  obtain ⟨state, heard, same⟩ := except_bind_eq_ok.mp read
  cases same
  obtain ⟨⟨out', state'⟩, written, same⟩ := except_bind_eq_ok.mp wrote
  cases same
  exact ⟨except_bind_eq_ok.mpr ⟨_, rfl, except_bind_eq_ok.mpr ⟨_, heard, written⟩⟩, rfl⟩

theorem respond_of {own : Key} {msg out : List UInt8} {eph : UInt8} {state : PlainNoise.HandshakeState}
    (answer : PlainNoise.snow.respond own msg eph = .ok (out, state)) : snow.respond own msg eph = .ok (out, ⟨own, state, false⟩) := by
  obtain ⟨_, built, rest⟩ := except_bind_eq_ok.mp answer
  cases built
  obtain ⟨st₁, read, wrote⟩ := except_bind_eq_ok.mp rest
  exact except_bind_eq_ok.mpr ⟨_, rfl, except_bind_eq_ok.mpr ⟨⟨own, st₁, false⟩, except_bind_eq_ok.mpr ⟨_, read, rfl⟩,
    except_bind_eq_ok.mpr ⟨_, wrote, rfl⟩⟩⟩

theorem finish_ok {st : HandshakeState} {msg : List UInt8} {t : TransportState} (finished : snow.finish st msg = .ok t) :
    ∃ u, PlainNoise.snow.finish st.state msg = .ok u ∧ snow.origin t = PlainNoise.snow.origin u := by
  obtain ⟨st₁, read, into⟩ := except_bind_eq_ok.mp finished
  obtain ⟨state, heard, same⟩ := except_bind_eq_ok.mp read
  cases same
  cases state with
  | complete remote first second =>
    cases into
    exact ⟨_, except_bind_eq_ok.mpr ⟨_, heard, rfl⟩, rfl⟩
  | initiator | waiting | responder | heard => cases into

theorem lawful : snow.Lawful where
  initiates own remote eph := ⟨_, _, rfl⟩
  responds own remote eph msg st eph' made := by
    obtain ⟨rfl, -⟩ := PlainNoise.initiate_ok (initiate_ok made).1
    exact ⟨_, _, _, respond_of (PlainNoise.respond_eq remote own eph eph'), rfl, rfl, rfl⟩
  finish_only own remote eph msg st key first eph' msg' st' t made answer finished := by
    obtain ⟨u, done, same⟩ := finish_ok finished
    rw [same]
    exact PlainNoise.lawful.finish_only _ _ _ _ _ _ _ _ _ _ _ (initiate_ok made).1 (respond_ok answer).1 done
  first_unfinished own remote eph msg st own' remote' eph' msg' st' t made other finished := by
    obtain ⟨u, done, -⟩ := finish_ok finished
    exact PlainNoise.lawful.first_unfinished _ _ _ _ _ _ _ _ _ _ _ (initiate_ok made).1 (initiate_ok other).1 done
  second_unanswered own first eph msg st own' eph' answer made again :=
    PlainNoise.lawful.second_unanswered _ _ _ _ _ _ _ _ (respond_ok made).1 (respond_ok again).1
  first_once own remote eph msg st own' remote' eph' st' made made' :=
    PlainNoise.lawful.first_once _ _ _ _ _ _ _ _ _ (initiate_ok made).1 (initiate_ok made').1
  short st eph msg st' wrote := by
    obtain ⟨⟨msg', state⟩, written, same⟩ := except_bind_eq_ok.mp wrote
    cases same
    exact PlainNoise.writeMessage_short written
  origin_write t msg out t' wrote := congrArg Prod.snd (counters_lawful.write t msg out t' wrote).1
  origin_read t msg out t' read := congrArg Prod.snd (counters_lawful.read t msg out t' read).1

/-! ## A session between two links -/

def peers : Peers where
  key x := .replicate 32 (if x then 2 else 1)
  addr x := ⟨.v4 loopback, if x then 9300 else 9200⟩

def letter (cid : UInt32) : Cell := ⟨cid, .padding, 0, []⟩

def meeting (cell : Cell) : List (PairEvent snow) :=
  [.act false (.sendCell 0 (peers.addr true) cell), .act false (.step 0 (10 : UInt8)), .act false (.step 0 (11 : UInt8)),
   .act false (.step 0 (12 : UInt8)),
   .deliver true (hsSingle (firstMsg (peers.key false) (peers.key true) 12)) (23 : UInt8),
   .act true .handle, .act true .handle, .act true .handle,
   .deliver false (hsSingle (secondMsg (peers.key false) (peers.key true) 12 23)) (14 : UInt8),
   .act false (.step 0 (15 : UInt8))]

def matching? (p : Pair snow) : Bool :=
  match (p.link false).sessions.get (peers.addr true), (p.link true).sessions.get (peers.addr false) with
  | some t, some u => counters.handshake u = counters.handshake t ∧ counters.initiator u = (!counters.initiator t) ∧
      counters.received u = counters.sent t
  | _, _ => false

theorem matching_some {p : Pair snow} (matching : matching? p = true) : ∃ t u,
    (p.link false).sessions.get (peers.addr true) = some t ∧ (p.link true).sessions.get (peers.addr false) = some u ∧
      counters.Matching t u := by
  unfold matching? at matching
  split at matching
  next t u has has' =>
    obtain ⟨handshake, initiator, counter⟩ := of_decide_eq_true matching
    exact ⟨t, u, has, has', handshake, initiator, counter⟩
  next => cases matching

theorem met {α : Type} {cell : Cell} {see : Pair snow → Option α} {seen : α}
    (computed : ((meeting cell).foldlM (Pair.step peers) (Pair.start snow peers)).bind see = some seen) :
    ∃ p, Run (Pair.Step peers) (Pair.start snow peers) (meeting cell) p ∧ see p = some seen := by
  obtain ⟨p, done, shown⟩ := Option.bind_eq_some_iff.mp computed
  exact ⟨p, Run.of_foldlM done, shown⟩

end Nbf.Net.CountedNoise
