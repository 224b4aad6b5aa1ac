import Nbf.Net.Binding
import Nbf.Net.Survival

/-! Attempts in flight and messages that belong to none.

`handle_hs` takes the attempt out of the map before it knows whether the message
is read by it, and does not put it back.
-/

set_option autoImplicit false

namespace Nbf.Net

open Nbf.Library Nbf.Crypto

variable {S : Snow}

namespace Link

/-- The attempt in flight for `src` does not read `msg`, and a fresh responder does not either. -/
structure Unread (l : Link S) (src : SocketAddr) (msg : List UInt8) : Prop where
  second : ∀ st st', l.hsInflight.get src = some st → S.readMessage st msg ≠ .ok st'
  first : ∀ st st', S.buildResponder l.localStatic = .ok st → S.readMessage st msg ≠ .ok st'

/-- `handle_hs` leaves the three maps as they are and sends nothing, and what would have completed
the attempt in flight still does. -/
structure Spared (l : Link S) (src : SocketAddr) (msg : List UInt8) (eph : S.Ephemeral) : Prop where
  inflight : (l.handleHs src msg eph).hsInflight = l.hsInflight
  sessions : (l.handleHs src msg eph).sessions = l.sessions
  statics : (l.handleHs src msg eph).peerStatics = l.peerStatics
  silent : ∀ hs l', Settles (l.handleHs src msg eph) hs l' → hs = [] ∧ l' = l.handleHs src msg eph
  completes : ∀ later eph' st t, l.judge src later eph' = .completes st t →
    ((l.handleHs src msg eph).handleHs src later eph').sessions.get src = some t

theorem Unread.ignored {l : Link S} {src : SocketAddr} {msg : List UInt8} (unread : l.Unread src msg) (eph : S.Ephemeral) :
    l.judge src msg eph = .ignored := by
  have noAnswer : ∀ answer, S.respond l.localStatic msg eph ≠ .ok answer := by
    intro answer responds
    obtain ⟨st, built, rest⟩ := except_bind_eq_ok.mp responds
    obtain ⟨st', read, -⟩ := except_bind_eq_ok.mp rest
    exact unread.first st st' built read
  obtain ⟨reason, fails⟩ : ∃ reason, S.respond l.localStatic msg eph = .error reason := by
    cases responds : S.respond l.localStatic msg eph with
    | error reason => exact ⟨reason, rfl⟩
    | ok answer => exact absurd responds (noAnswer answer)
  simp only [judge, fails]
  split
  next => rfl
  next st attempted =>
    split
    next t finished =>
      obtain ⟨st', read, -⟩ := except_bind_eq_ok.mp finished
      exact absurd read (unread.second st st' attempted)
    next => rfl

theorem Unread.handleHs {l : Link S} {src : SocketAddr} {msg : List UInt8} (unread : l.Unread src msg) (eph : S.Ephemeral) :
    l.handleHs src msg eph = { l with hsInflight := l.hsInflight.remove src } := by
  simp only [Link.handleHs, unread.ignored eph]

theorem handleHs_completes {l : Link S} {src : SocketAddr} {msg : List UInt8} {eph : S.Ephemeral} {st : S.HandshakeState}
    {t : S.TransportState} (verdict : l.judge src msg eph = .completes st t) :
    (l.handleHs src msg eph).sessions.get src = some t := by
  simp only [Link.handleHs, verdict, Table.get_insert_self]

theorem Spared.none_inflight {l : Link S} {src : SocketAddr} {msg : List UInt8} {eph : S.Ephemeral}
    (spared : l.Spared src msg eph) (unread : l.Unread src msg) : l.hsInflight.get src = none := by
  have kept := spared.inflight
  rw [unread.handleHs eph] at kept
  rw [← kept]
  exact Table.get_remove_self ..

/-- A message that nobody reads disturbs nothing exactly if no attempt is in flight for its sender. -/
theorem spared_iff {l : Link S} (idle : l.recv = .idle) {src : SocketAddr} {msg : List UInt8} (unread : l.Unread src msg)
    (eph : S.Ephemeral) : l.Spared src msg eph ↔ l.hsInflight.get src = none := by
  constructor
  · exact fun spared => spared.none_inflight unread
  · intro none
    have same : l.handleHs src msg eph = l := by rw [unread.handleHs, Table.remove_of_none _ none]
    refine ⟨?_, ?_, ?_, ?_, ?_⟩
    · rw [same]
    · rw [same]
    · rw [same]
    · intro hs l' settles
      rw [same] at settles ⊢
      exact settles.of_idle idle
    · intro later eph' st t verdict
      rw [same]
      exact handleHs_completes verdict

end Link

namespace PlainNoise

def calling : List (LinkEvent snow) := [.sendCell 0 door letter, .step 0 (10 : UInt8), .step 0 (11 : UInt8), .step 0 (12 : UInt8)]

def spoilt : List (LinkEvent snow) :=
  [.receive door (hsSingle []) (13 : UInt8), .receive door (hsSingle (secondMsg own owner 12 23)) (14 : UInt8),
   .deadline 0, .step 0 (15 : UInt8)]

theorem empty_unread {l : Link snow} {src : SocketAddr} : l.Unread src [] := by
  have never (st : HandshakeState) : readMessage st [] = .error "decrypt error" := by cases st <;> rfl
  constructor
  · intro st st' _ read
    cases (never st).symm.trans read
  · intro st st' _ read
    cases (never st).symm.trans read

def listening (l : Link snow) : Bool :=
  match l.recv with
  | .idle => true
  | .reply .. | .learn .. | .store .. => false

/-- An empty message from elsewhere is taken for nothing, and the call to the owner goes on. -/
theorem bind_spared : ∃ l, Run Link.Step ((Link.bind snow own).setPeerStatic door owner) calling l ∧
    (l.hsInflight.get door).isSome ∧ l.Spared ⟨.v4 loopback, 9400⟩ [] (13 : UInt8) := by
  have computed : ((calling.foldlM next ((Link.bind snow own).setPeerStatic door owner)).map fun l =>
      ((l.hsInflight.get door).isSome, (l.hsInflight.get ⟨.v4 loopback, 9400⟩).isNone, listening l)) =
        some (true, true, true) := by
    decide +kernel
  obtain ⟨l, called, seen⟩ := Option.map_eq_some_iff.mp computed
  obtain ⟨attempt, rest⟩ := Prod.mk.inj seen
  obtain ⟨none, idle⟩ := Prod.mk.inj rest
  have between : l.recv = .idle := by
    cases now : l.recv with
    | idle => rfl
    | reply | learn | store => simp [listening, now] at idle
  exact ⟨l, (Run.of_foldlM called).mono fun _ _ _ => step_of_next, attempt,
    (Link.spared_iff between empty_unread (13 : UInt8)).mpr (Option.isNone_iff_eq_none.mp none)⟩

/-- After the empty message the owner's answer comes to nothing, and the call ends in a timeout. -/
theorem spoilt_times_out : ∃ l l', Run Link.Step ((Link.bind snow own).setPeerStatic door owner) calling l ∧
    l.Unread door [] ∧ ¬ l.Spared door [] (13 : UInt8) ∧ Run Link.Step l spoilt l' ∧
    l'.tasks.get 0 = some (.done (.error .timeout)) ∧ l'.sessions.get door = none := by
  have computed : ((calling.foldlM next ((Link.bind snow own).setPeerStatic door owner)).bind fun l =>
      (spoilt.foldlM next l).bind fun l' =>
        some ((l.hsInflight.get door).isSome, l'.tasks.get 0, (l'.sessions.get door).isNone)) =
      some (true, some (.done (.error .timeout)), true) := by
    decide +kernel
  obtain ⟨l, called, rest⟩ := Option.bind_eq_some_iff.mp computed
  obtain ⟨l', ended, seen⟩ := Option.bind_eq_some_iff.mp rest
  simp only [Option.some.injEq, Prod.mk.injEq, Option.isNone_iff_eq_none] at seen
  obtain ⟨attempt, timedOut, without⟩ := seen
  refine ⟨l, l', (Run.of_foldlM called).mono fun _ _ _ => step_of_next, empty_unread, ?_,
    (Run.of_foldlM ended).mono fun _ _ _ => step_of_next, timedOut, without⟩
  intro spared
  rw [spared.none_inflight empty_unread] at attempt
  cases attempt

end PlainNoise
end Nbf.Net
