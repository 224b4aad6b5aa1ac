import Mathlib.Data.List.Basic

/-! One list as many queues: the items of one key, in order, are a lane of it.

An item that no other of its key precedes is the first of its lane, and leaves
that lane only.
-/

set_option autoImplicit false

namespace Nbf.Library

variable {α β κ : Type} [DecidableEq κ] (key : α → κ) (val : α → β)

def lane (k : κ) (l : List α) : List β := l.filterMap fun x => if key x = k then some (val x) else none

variable {key val} {k : κ} {l l' before after : List α} {x : α}

theorem lane_append : lane key val k (l ++ l') = lane key val k l ++ lane key val k l' := List.filterMap_append

theorem lane_cons : lane key val k (x :: l) = (if key x = k then [val x] else []) ++ lane key val k l := by
  rw [lane, List.filterMap_cons]
  by_cases here : key x = k
  · simp only [if_pos here, List.singleton_append, lane]
  · simp only [if_neg here, List.nil_append, lane]

theorem lane_eq_nil (apart : ∀ x ∈ l, key x ≠ k) : lane key val k l = [] :=
  List.filterMap_eq_nil_iff.mpr fun x member => if_neg (apart x member)

theorem lane_eq_map (same : ∀ x ∈ l, key x = k) : lane key val k l = l.map val := by
  induction l with
  | nil => rfl
  | cons x l ih =>
    rw [lane_cons, if_pos (same x List.mem_cons_self), ih fun y member => same y (List.mem_cons_of_mem _ member)]
    rfl

theorem lane_removed (first : ∀ y ∈ before, key y ≠ key x) (k : κ) : lane key val k (before ++ x :: after) =
    (if key x = k then [val x] else []) ++ lane key val k (before ++ after) := by
  rw [lane_append, lane_append, lane_cons]
  by_cases here : key x = k
  · subst here
    rw [lane_eq_nil first, List.nil_append, List.nil_append]
  · rw [if_neg here, List.nil_append, List.nil_append]

theorem exists_of_lane_cons {b : β} {rest : List β} (lane_eq : lane key val k l = b :: rest) :
    ∃ before x after, l = before ++ x :: after ∧ key x = k ∧ val x = b ∧ (∀ y ∈ before, key y ≠ k) := by
  induction l with
  | nil => cases lane_eq
  | cons x l ih =>
    rw [lane_cons] at lane_eq
    by_cases here : key x = k
    · rw [if_pos here, List.singleton_append, List.cons.injEq] at lane_eq
      exact ⟨[], x, l, rfl, here, lane_eq.1, by simp⟩
    · rw [if_neg here, List.nil_append] at lane_eq
      obtain ⟨before, y, after, rfl, there, same, none⟩ := ih lane_eq
      refine ⟨x :: before, y, after, rfl, there, same, fun z member => ?_⟩
      rcases List.mem_cons.mp member with rfl | later
      · exact here
      · exact none z later

end Nbf.Library
