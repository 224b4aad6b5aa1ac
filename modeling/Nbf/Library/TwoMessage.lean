import Nbf.Library.Run
import Nbf.Library.Table

/-! Handshakes of two messages between two parties.

Each party may start attempts, a later one in the place of the one before, and
answers every attempt of the other at once: the answering party takes the session
of a handshake with the first message, and gives up its own attempt; the starting
one takes it with the second, if it still waits for it. What the parties draw is
fresh. The record of what was accepted and completed is
part of the state; messages are not, so an accepted handshake may be completed
at any later time, or never.
-/

set_option autoImplicit false

namespace Nbf.Library.TwoMessage

variable {ε : Type}

structure Shake (ε : Type) where
  initiator : Bool
  first : ε
  second : ε

structure Exchange (ε : Type) where
  attempt : Table Bool ε
  session : Table Bool (Shake ε)
  /-- Oldest first. -/
  accepted : List (Shake ε)
  completed : List (Shake ε)
  drawn : List ε

inductive Act (ε : Type) where
  | start (x : Bool) (first : ε)
  | accept (h : Shake ε)
  | complete (h : Shake ε)

namespace Exchange

def empty : Exchange ε := { attempt := .empty, session := .empty, accepted := [], completed := [], drawn := [] }

inductive Step : Exchange ε → Act ε → Exchange ε → Prop where
  | start {s : Exchange ε} {x : Bool} {first : ε} : first ∉ s.drawn →
      Step s (.start x first) { s with attempt := s.attempt.insert x first, drawn := first :: s.drawn }
  | accept {s : Exchange ε} {h : Shake ε} : h.first ∈ s.drawn → h.second ∉ s.drawn →
      Step s (.accept h) { s with attempt := s.attempt.remove (!h.initiator),
                                  session := s.session.insert (!h.initiator) h,
                                  accepted := s.accepted ++ [h], drawn := h.second :: s.drawn }
  | complete {s : Exchange ε} {h : Shake ε} : h ∈ s.accepted → s.attempt.get h.initiator = some h.first →
      Step s (.complete h) { s with attempt := s.attempt.remove h.initiator, session := s.session.insert h.initiator h,
                                    completed := s.completed ++ [h] }

def Unanswered (s : Exchange ε) (x : Bool) : Prop :=
  ∀ first, s.attempt.get x = some first → ∀ h ∈ s.accepted, h.first ≠ first

structure Consistent (s : Exchange ε) : Prop where
  started : ∀ x first, s.attempt.get x = some first → first ∈ s.drawn
  drawn : ∀ h ∈ s.accepted, h.first ∈ s.drawn ∧ h.second ∈ s.drawn
  /-- The answer tells handshakes apart. -/
  apart : ∀ h ∈ s.accepted, ∀ h' ∈ s.accepted, h.second = h'.second → h = h'
  known : ∀ x h, s.session.get x = some h → h ∈ s.accepted
  kept : ∀ h ∈ s.completed, h ∈ s.accepted
  /-- The party that accepted last has this session, and nothing that could replace it. -/
  answered : ∀ h, s.accepted.getLast? = some h → s.session.get (!h.initiator) = some h ∧ s.Unanswered (!h.initiator)
  /-- The other one has it exactly from its completion on. -/
  finished : ∀ h, s.accepted.getLast? = some h → (h ∈ s.completed ↔ s.session.get h.initiator = some h) ∧
    (h ∈ s.completed → s.Unanswered h.initiator)

theorem consistent_empty : Consistent (empty : Exchange ε) where
  started _ _ here := by cases here
  drawn _ member := by cases member
  apart _ member := by cases member
  known _ _ here := by cases here
  kept _ member := by cases member
  answered _ last := by cases last
  finished _ last := by cases last

namespace Consistent

variable {s : Exchange ε}

theorem start (consistent : Consistent s) {x : Bool} {first : ε} (fresh : first ∉ s.drawn) :
    Consistent { s with attempt := s.attempt.insert x first, drawn := first :: s.drawn } := by
  -- A fresh draw is in no accepted handshake, so nobody has answered it yet.
  have unanswered (y : Bool) (before : s.Unanswered y) :
      Unanswered { s with attempt := s.attempt.insert x first, drawn := first :: s.drawn } y := by
    intro mine here h member
    rcases Table.get_insert_some here with ⟨-, rfl⟩ | ⟨-, old⟩
    · intro same
      exact fresh (same ▸ (consistent.drawn h member).1)
    · exact before mine old h member
  exact
    { consistent with
      started := fun y mine here => by
        rcases Table.get_insert_some here with ⟨-, rfl⟩ | ⟨-, old⟩
        · exact List.mem_cons_self
        · exact List.mem_cons_of_mem _ (consistent.started y mine old)
      drawn := fun h member =>
        ⟨List.mem_cons_of_mem _ (consistent.drawn h member).1, List.mem_cons_of_mem _ (consistent.drawn h member).2⟩
      answered := fun h last => ⟨(consistent.answered h last).1, unanswered _ (consistent.answered h last).2⟩
      finished := fun h last =>
        ⟨(consistent.finished h last).1, fun done => unanswered _ ((consistent.finished h last).2 done)⟩ }

theorem accept (consistent : Consistent s) {h : Shake ε} (first : h.first ∈ s.drawn) (fresh : h.second ∉ s.drawn) :
    Consistent { s with attempt := s.attempt.remove (!h.initiator), session := s.session.insert (!h.initiator) h,
                        accepted := s.accepted ++ [h], drawn := h.second :: s.drawn } := by
  -- The answer is fresh too, and tells the new handshake apart from all before it.
  have new (h' : Shake ε) (member : h' ∈ s.accepted) : h'.second ≠ h.second :=
    fun same => fresh (same ▸ (consistent.drawn h' member).2)
  have unseen : h ∉ s.accepted := fun member => new h member rfl
  exact
    { started := fun y mine here => List.mem_cons_of_mem _ (consistent.started y mine (Table.get_remove_some here))
      drawn := fun h' member => by
        rcases List.mem_append.mp member with old | now
        · exact ⟨List.mem_cons_of_mem _ (consistent.drawn h' old).1, List.mem_cons_of_mem _ (consistent.drawn h' old).2⟩
        · rw [List.mem_singleton.mp now]
          exact ⟨List.mem_cons_of_mem _ first, List.mem_cons_self⟩
      apart := fun h₁ member₁ h₂ member₂ same => by
        rcases List.mem_append.mp member₁ with old₁ | now₁
        · rcases List.mem_append.mp member₂ with old₂ | now₂
          · exact consistent.apart h₁ old₁ h₂ old₂ same
          · rw [List.mem_singleton.mp now₂] at same
            exact absurd same (new h₁ old₁)
        · rw [List.mem_singleton.mp now₁] at same ⊢
          rcases List.mem_append.mp member₂ with old₂ | now₂
          · exact absurd same.symm (new h₂ old₂)
          · exact (List.mem_singleton.mp now₂).symm
      known := fun y h' here => by
        rcases Table.get_insert_some here with ⟨-, rfl⟩ | ⟨-, old⟩
        · exact List.mem_append_right _ (List.mem_singleton_self _)
        · exact List.mem_append_left _ (consistent.known y h' old)
      kept := fun h' done => List.mem_append_left _ (consistent.kept h' done)
      answered := fun h' last => by
        rw [List.getLast?_concat, Option.some.injEq] at last
        subst last
        refine ⟨Table.get_insert_self .., fun mine here => ?_⟩
        rw [Table.get_remove_self] at here
        cases here
      finished := fun h' last => by
        rw [List.getLast?_concat, Option.some.injEq] at last
        subst last
        have pending : h ∉ s.completed := fun done => unseen (consistent.kept h done)
        refine ⟨⟨fun done => absurd done pending, fun here => ?_⟩, fun done => absurd done pending⟩
        rw [Table.get_insert_of_ne _ _ (by simp)] at here
        exact absurd (consistent.known _ _ here) unseen }

theorem complete (consistent : Consistent s) {h : Shake ε} (accepted : h ∈ s.accepted)
    (waiting : s.attempt.get h.initiator = some h.first) :
    Consistent { s with attempt := s.attempt.remove h.initiator, session := s.session.insert h.initiator h,
                        completed := s.completed ++ [h] } := by
  have unanswered (y : Bool) (before : s.Unanswered y) :
      Unanswered { s with attempt := s.attempt.remove h.initiator, session := s.session.insert h.initiator h,
                          completed := s.completed ++ [h] } y :=
    fun mine here => before mine (Table.get_remove_some here)
  -- The party that accepted last waits for no answer, so it is the other one that completes.
  have role (last : Shake ε) (isLast : s.accepted.getLast? = some last) : last.initiator = h.initiator := by
    by_contra other
    have mine : (!last.initiator) = h.initiator := Bool.not_eq.mpr other
    exact (consistent.answered last isLast).2 h.first (mine ▸ waiting) h accepted rfl
  exact
    { consistent with
      started := fun y mine here => consistent.started y mine (Table.get_remove_some here)
      known := fun y h' here => by
        rcases Table.get_insert_some here with ⟨-, rfl⟩ | ⟨-, old⟩
        · exact accepted
        · exact consistent.known y h' old
      kept := fun h' done => by
        rcases List.mem_append.mp done with old | now
        · exact consistent.kept h' old
        · rw [List.mem_singleton.mp now]
          exact accepted
      answered := fun last isLast => by
        obtain ⟨has, free⟩ := consistent.answered last isLast
        refine ⟨?_, unanswered _ free⟩
        rw [Table.get_insert_of_ne _ _ (by simp [role last isLast]), has]
      finished := fun last isLast => by
        have same := role last isLast
        refine ⟨?_, fun _ mine here => ?_⟩
        · rw [same, Table.get_insert_self, Option.some.injEq, List.mem_append, List.mem_singleton]
          constructor
          · rintro (done | now)
            · exact absurd rfl ((consistent.finished last isLast).2 done h.first (same ▸ waiting) h accepted)
            · exact now.symm
          · exact fun now => .inr now.symm
        · rw [same, Table.get_remove_self] at here
          cases here }

theorem step (consistent : Consistent s) {act : Act ε} {t : Exchange ε} (step : Step s act t) : Consistent t := by
  cases step with
  | start fresh => exact consistent.start fresh
  | accept first fresh => exact consistent.accept first fresh
  | complete accepted waiting => exact consistent.complete accepted waiting

/-- The two sessions are of one handshake exactly if the handshake that was accepted last has been
completed. -/
theorem agree_iff (consistent : Consistent s) {left right : Shake ε} (has : s.session.get false = some left)
    (has' : s.session.get true = some right) :
    (left.first = right.first ∧ left.second = right.second) ↔
      ∃ last, s.accepted.getLast? = some last ∧ last ∈ s.completed := by
  obtain ⟨last, isLast⟩ : ∃ last, s.accepted.getLast? = some last := by
    cases last : s.accepted.getLast? with
    | some h => exact ⟨h, rfl⟩
    | none =>
      have nobody := consistent.known false left has
      rw [List.getLast?_eq_none_iff.mp last] at nobody
      cases nobody
  have both : (left.first = right.first ∧ left.second = right.second) ↔ left = right :=
    ⟨fun same => consistent.apart left (consistent.known _ _ has) right (consistent.known _ _ has') same.2,
      fun same => same ▸ ⟨rfl, rfl⟩⟩
  obtain ⟨answered, -⟩ := consistent.answered last isLast
  obtain ⟨finished, -⟩ := consistent.finished last isLast
  have only : (∃ h, s.accepted.getLast? = some h ∧ h ∈ s.completed) ↔ last ∈ s.completed :=
    ⟨fun ⟨h, isLast', done⟩ => Option.some.inj (isLast.symm.trans isLast') ▸ done, fun done => ⟨last, isLast, done⟩⟩
  rw [both, only, finished]
  -- One of the two accepted last and has this session; the other has it exactly if it completed it.
  cases role : last.initiator with
  | false =>
    rw [role, Bool.not_false, has', Option.some.injEq] at answered
    rw [has, Option.some.injEq, answered]
  | true =>
    rw [role, Bool.not_true, has, Option.some.injEq] at answered
    rw [has', Option.some.injEq, answered]
    exact eq_comm

/-- When they are, nobody waits for an answer that has been given. -/
theorem unanswered (consistent : Consistent s) {left right : Shake ε} (has : s.session.get false = some left)
    (has' : s.session.get true = some right) (first : left.first = right.first) (second : left.second = right.second) (x : Bool) :
    s.Unanswered x := by
  obtain ⟨last, isLast, done⟩ := (consistent.agree_iff has has').mp ⟨first, second⟩
  by_cases role : x = last.initiator
  · rw [role]
    exact (consistent.finished last isLast).2 done
  · rw [Bool.eq_not.mpr role]
    exact (consistent.answered last isLast).2

end Consistent
end Exchange
end Nbf.Library.TwoMessage
