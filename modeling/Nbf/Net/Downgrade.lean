import Nbf.Net.CountedNoise
import Nbf.Net.Transport

/-! What a link with a session hands on from its address.

A datagram that does not decrypt is tried as a clear cell, session or not.
-/

set_option autoImplicit false

namespace Nbf.Net

open Nbf.Library Nbf.Crypto

variable {S : Snow}

namespace Link

/-- The event hands no cell on, or the cell that the session has decrypted. -/
def Strict (l : Link S) (event : LinkEvent S) (l' : Link S) : Prop :=
  match event with
  | .receive src datagram _ => ∀ t, l.sessions.get src = some t → l'.tx = l.tx ∨
      ∃ plain t' cell, S.transportRead t (datagram.take hsDgram) = .ok (plain, t') ∧ Cell.decode plain = .ok cell ∧
        l'.tx = l.tx ++ [(src, cell)]
  | _ => l'.tx = l.tx

/-- No datagram comes from the address of a session that is a clear cell, unless it decrypts. -/
def Sealed (l : Link S) (event : LinkEvent S) (_ : Link S) : Prop :=
  match event with
  | .receive src datagram _ => ∀ t cell, l.sessions.get src = some t → isFragment (datagram.take hsDgram) = false →
      Cell.decode (datagram.take hsDgram) = .ok cell → ∃ opened, S.transportRead t (datagram.take hsDgram) = .ok opened
  | _ => True

theorem stepTask_tx {l l' : Link S} {i : Nat} {eph : S.Ephemeral} {task : SendTask} {sent : Sent}
    (step : l.stepTask i eph task = some (l', sent)) : l'.tx = l.tx := by
  unfold stepTask at step
  repeat' split at step
  all_goals
    cases step
    try rfl

theorem step_tx {l l' : Link S} {event : LinkEvent S} (step : l.Step event l')
    (other : ∀ src datagram eph, event ≠ .receive src datagram eph) : l'.tx = l.tx := by
  obtain ⟨sent, step⟩ := step
  cases event with
  | receive => exact absurd rfl (other _ _ _)
  | step i eph =>
    obtain ⟨task, -, step⟩ := Option.bind_eq_some_iff.mp step
    exact stepTask_tx step
  | refuse i eph count reason =>
    obtain ⟨task, -, step⟩ := Option.bind_eq_some_iff.mp step
    unfold refuseTask at step
    repeat' split at step
    all_goals
      cases step
      try rfl
  | sendCell i addr cell =>
    simp only [Link.step] at step
    split at step
    · cases step
      rfl
    · cases step
  | setPeerStatic addr key =>
    cases step
    rfl
  | deadline i =>
    simp only [Link.step] at step
    repeat' split at step
    all_goals
      cases step
      try rfl
  | handle =>
    simp only [Link.step, stepRecv] at step
    repeat' split at step
    all_goals
      cases step
      try rfl

/-- Under a session, a datagram that does not decrypt is handed on if it is a clear cell. -/
theorem receiveCell_clear {l : Link S} {src : SocketAddr} {data : List UInt8} {t : S.TransportState}
    (has : l.sessions.get src = some t) (unread : ∀ opened, S.transportRead t data ≠ .ok opened) :
    (∀ cell, Cell.decode data = .ok cell → (l.receiveCell src data).tx = l.tx ++ [(src, cell)]) ∧
      ((∀ cell, Cell.decode data ≠ .ok cell) → (l.receiveCell src data).tx = l.tx) := by
  cases read : S.transportRead t data with
  | ok opened => exact absurd read (unread opened)
  | error reason =>
    simp only [receiveCell, has, read]
    refine ⟨fun cell decoded => by simp only [decoded], fun none => ?_⟩
    split
    next cell decoded => exact absurd decoded (none cell)
    next => rfl

theorem receiveCell_opened {l : Link S} {src : SocketAddr} {data plain : List UInt8} {t t' : S.TransportState}
    (has : l.sessions.get src = some t) (read : S.transportRead t data = .ok (plain, t')) :
    (l.receiveCell src data).tx = l.tx ∨ ∃ cell, Cell.decode plain = .ok cell ∧
      (l.receiveCell src data).tx = l.tx ++ [(src, cell)] := by
  simp only [receiveCell, has, read]
  split
  next cell decoded => exact .inr ⟨cell, decoded, rfl⟩
  next => exact .inl rfl

theorem strict_iff_sealed {l l' : Link S} {event : LinkEvent S} (step : l.Step event l') :
    Strict l event l' ↔ Sealed l event l' := by
  cases event with
  | receive src datagram eph =>
    obtain ⟨sent, step⟩ := step
    obtain rfl := receive_of_step step
    cases fragment : isFragment (datagram.take hsDgram) with
    | true =>
      have none := l.receive_fragment_tx src eph fragment
      exact ⟨fun _ _ _ _ other => absurd other (by rw [fragment]; decide), fun _ _ _ => .inl none⟩
    | false =>
      by_cases blank : datagram.take hsDgram = []
      · have same : l.receive src datagram eph = l := by
          simp only [receive, blank]
          rfl
        exact ⟨fun _ _ _ _ _ decoded => (by rw [blank] at decoded; cases decoded), fun _ _ _ => .inl (by rw [same])⟩
      rw [receive_other eph fragment blank]
      simp only [Strict, Sealed, fragment, true_implies]
      constructor
      · intro strict t letter has decoded
        by_contra unread
        have handed := (receiveCell_clear has (not_exists.mp unread)).1 letter decoded
        rcases strict t has with same | ⟨plain, t', _, read, -⟩
        · rw [handed] at same
          exact absurd (congrArg List.length same) (by simp)
        · exact unread ⟨_, read⟩
      · intro shut t has
        by_cases opens : ∃ opened, S.transportRead t (datagram.take hsDgram) = .ok opened
        · obtain ⟨⟨plain, t'⟩, read⟩ := opens
          rcases receiveCell_opened has read with same | ⟨letter, decoded, handed⟩
          · exact .inl same
          · exact .inr ⟨plain, t', letter, read, decoded, handed⟩
        · exact .inl ((receiveCell_clear has (not_exists.mp opens)).2 fun letter decoded => opens (shut t letter has decoded))
  | sendCell | setPeerStatic | step | refuse | deadline | handle =>
    exact ⟨fun _ => trivial, fun _ => step_tx step fun _ _ _ other => by cases other⟩

/-- From the address of a session nothing but what it decrypts is handed on, exactly if no clear cell
comes from there. -/
theorem strict_iff (own : Octets 32) (events : List (LinkEvent S)) (l : Link S) :
    Run (Such Step Strict) (bind S own) events l ↔ Run (Such Step Sealed) (bind S own) events l :=
  Run.such_iff (fun _ => True) (fun _ _ _ _ _ => trivial) (fun _ _ _ _ step => strict_iff_sealed step) trivial

end Link

namespace CountedNoise

def opened : List (LinkEvent snow) :=
  [.receive (peers.addr false) (hsSingle (firstMsg (peers.key false) (peers.key true) 12)) (23 : UInt8), .handle, .handle, .handle]

def postcard (cid : UInt32) : List UInt8 :=
  match (letter cid).encode with
  | .ok buf => buf.bytes
  | _ => []

def reads (t : TransportState) (data : List UInt8) : Bool := (snow.transportRead t data).toOption.isSome

/-- A clear cell from the address of the session. -/
theorem postcard_handed_on : ∃ l l' t, Run Link.Step (Link.bind snow (peers.key true)) opened l ∧
    l.sessions.get (peers.addr false) = some t ∧ l.Step (.receive (peers.addr false) (postcard 5) (24 : UInt8)) l' ∧
    l'.tx = [(peers.addr false, letter 5)] ∧ ¬ l.Strict (.receive (peers.addr false) (postcard 5) (24 : UInt8)) l' := by
  have computed : ((opened.foldlM Link.next (Link.bind snow (peers.key true))).bind fun l =>
      (l.sessions.get (peers.addr false)).bind fun t =>
        (l.next (.receive (peers.addr false) (postcard 5) (24 : UInt8))).map fun l' =>
          (l.tx, l'.tx, reads t ((postcard 5).take hsDgram))) = some ([], [(peers.addr false, letter 5)], false) := by
    decide +kernel
  obtain ⟨l, done, shown⟩ := Option.bind_eq_some_iff.mp computed
  obtain ⟨t, has, arrives⟩ := Option.bind_eq_some_iff.mp shown
  obtain ⟨l', taken, seen⟩ := Option.map_eq_some_iff.mp arrives
  obtain ⟨before, seen⟩ := Prod.mk.inj seen
  obtain ⟨after, unread⟩ := Prod.mk.inj seen
  refine ⟨l, l', t, (Run.of_foldlM done).mono fun _ _ _ => Link.step_of_next, has, Link.step_of_next taken, after,
    fun strict => ?_⟩
  rcases strict t has with same | ⟨plain, t', _, read, -⟩
  · rw [before, after] at same
    cases same
  · unfold reads at unread
    rw [read] at unread
    cases unread

end CountedNoise
end Nbf.Net
