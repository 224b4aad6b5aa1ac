import Mathlib.Data.List.Pairwise
import Mathlib.Order.Lattice

/-! A receiver that takes only what lies above all it has taken before.

It takes a whole stream exactly if the stream ascends; what one receiver has
taken, the next one takes without exception.
-/

set_option autoImplicit false

namespace Nbf.Library

variable {α β : Type} [LinearOrder α] (key : β → α)

/-- What is taken of a stream above `mark`. -/
def climb (mark : α) : List β → List β
  | [] => []
  | b :: l => if mark < key b then b :: climb (key b) l else climb mark l

def summit (mark : α) : List β → α
  | [] => mark
  | b :: l => summit (if mark < key b then key b else mark) l

/-- Every item lies above the mark and above all items before it. -/
def Ascends (mark : α) (l : List β) : Prop :=
  (∀ b ∈ l, mark < key b) ∧ l.Pairwise fun a b => key a < key b

variable {key}

theorem Ascends.cons_iff {mark : α} {b : β} {l : List β} :
    Ascends key mark (b :: l) ↔ mark < key b ∧ Ascends key (key b) l := by
  rw [Ascends, Ascends, List.pairwise_cons, List.forall_mem_cons]
  constructor
  · rintro ⟨⟨above, -⟩, later, rest⟩
    exact ⟨above, later, rest⟩
  · rintro ⟨above, later, rest⟩
    exact ⟨⟨above, fun c member => lt_trans above (later c member)⟩, later, rest⟩

theorem ascends_climb (mark : α) (l : List β) : Ascends key mark (climb key mark l) := by
  induction l generalizing mark with
  | nil => exact ⟨by simp [climb], by simp [climb]⟩
  | cons b l ih =>
    rw [climb]
    split
    next above => exact Ascends.cons_iff.mpr ⟨above, ih (key b)⟩
    next => exact ih mark

theorem Ascends.climb_eq {mark : α} {l : List β} (ascends : Ascends key mark l) : climb key mark l = l := by
  induction l generalizing mark with
  | nil => rfl
  | cons b l ih =>
    obtain ⟨above, rest⟩ := Ascends.cons_iff.mp ascends
    rw [climb, if_pos above, ih rest]

/-- The whole stream is taken exactly if it ascends. -/
theorem climb_eq_self_iff {mark : α} {l : List β} : climb key mark l = l ↔ Ascends key mark l :=
  ⟨fun same => same ▸ ascends_climb mark l, Ascends.climb_eq⟩

theorem climb_climb (mark : α) (l : List β) : climb key mark (climb key mark l) = climb key mark l :=
  (ascends_climb mark l).climb_eq

theorem climb_sublist (mark : α) (l : List β) : (climb key mark l).Sublist l := by
  induction l generalizing mark with
  | nil => exact .slnil
  | cons b l ih =>
    rw [climb]
    split
    · exact (ih _).cons_cons b
    · exact (ih _).cons b

theorem climb_append (mark : α) (l l' : List β) :
    climb key mark (l ++ l') = climb key mark l ++ climb key (summit key mark l) l' := by
  induction l generalizing mark with
  | nil => rfl
  | cons a l ih =>
    rw [List.cons_append, climb, climb, summit]
    split
    · rw [ih, List.cons_append]
    · exact ih mark

theorem climb_snoc (mark : α) (l : List β) (b : β) :
    climb key mark (l ++ [b]) = climb key mark l ++ if summit key mark l < key b then [b] else [] := by
  rw [climb_append]
  rfl

theorem summit_snoc (mark : α) (l : List β) (b : β) :
    summit key mark (l ++ [b]) = if summit key mark l < key b then key b else summit key mark l := by
  induction l generalizing mark with
  | nil => rfl
  | cons a l ih => exact ih _

/-- Behind a counter modulo `m`, the later of two numbers is the greater one exactly if it is ahead by more than the laps
between them. -/
theorem mod_lt_mod_iff {m a b : Nat} (later : a < b) : a % m < b % m ↔ m * (b / m - a / m) < b - a := by
  have lap := Nat.div_add_mod a m
  have lap' := Nat.div_add_mod b m
  have further : m * (a / m) ≤ m * (b / m) := Nat.mul_le_mul_left m (Nat.div_le_div_right later.le)
  rw [Nat.mul_sub]
  omega

end Nbf.Library
