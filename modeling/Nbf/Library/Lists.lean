import Mathlib.Data.List.Forall2

/-! Facts about lists that the core library and Mathlib do not state. -/

set_option autoImplicit false

namespace Nbf.Library

variable {α β γ : Type}

theorem forall₂_and {R S : α → β → Prop} {l : List α} {u : List β} (left : List.Forall₂ R l u)
    (right : List.Forall₂ S l u) : List.Forall₂ (fun a b => R a b ∧ S a b) l u := by
  induction left with
  | nil => exact .nil
  | cons head _ ih =>
    cases right with
    | cons head' tail' => exact .cons ⟨head, head'⟩ (ih tail')

theorem forall₂_getElem? {R : α → β → Prop} {l : List α} {u : List β} (related : List.Forall₂ R l u)
    {i : Nat} {a : α} (at_i : l[i]? = some a) : ∃ b, u[i]? = some b ∧ R a b := by
  induction related generalizing i with
  | nil => simp at at_i
  | cons head _ ih =>
    cases i with
    | zero =>
      cases at_i
      exact ⟨_, rfl, head⟩
    | succ i => exact ih at_i

theorem getElem?_snoc {l : List α} {i : Nat} {a b : α} (at_i : (l ++ [a])[i]? = some b) :
    l[i]? = some b ∨ i = l.length ∧ b = a := by
  by_cases old : i < l.length
  · rw [List.getElem?_append_left old] at at_i
    exact .inl at_i
  · rw [List.getElem?_append_right (Nat.le_of_not_lt old), List.getElem?_singleton] at at_i
    split at at_i
    next last => exact .inr ⟨by omega, (Option.some.inj at_i).symm⟩
    next => cases at_i

theorem drop_eq_cons {l : List α} {i : Nat} {a : α} (at_i : l[i]? = some a) :
    l.drop i = a :: l.drop (i + 1) := by
  obtain ⟨lt, same⟩ := List.getElem?_eq_some_iff.mp at_i
  rw [List.drop_eq_getElem_cons lt, same]

theorem exists_last_split (p : α → Prop) {l : List α} (some : ∃ a ∈ l, p a) :
    ∃ before a after, l = before ++ a :: after ∧ p a ∧ ∀ b ∈ after, ¬ p b := by
  induction l with
  | nil => simp at some
  | cons head tail ih =>
    by_cases later : ∃ a ∈ tail, p a
    · obtain ⟨before, a, after, same, here, none⟩ := ih later
      exact ⟨head :: before, a, after, by rw [same, List.cons_append], here, none⟩
    · obtain ⟨a, member, here⟩ := some
      rcases List.mem_cons.mp member with rfl | member
      · exact ⟨[], a, tail, rfl, here, fun b member so => later ⟨b, member, so⟩⟩
      · exact absurd ⟨a, member, here⟩ later

theorem exists_turn (P : List α → Prop) {l : List α} (not_yet : ¬ P []) (at_last : P l) :
    ∃ before a after, l = before ++ a :: after ∧ ¬ P before ∧ P (before ++ [a]) := by
  induction l generalizing P with
  | nil => exact absurd at_last not_yet
  | cons a l ih =>
    by_cases now : P [a]
    · exact ⟨[], a, l, rfl, not_yet, now⟩
    · obtain ⟨before, b, after, same, without, with_it⟩ := ih (fun l => P (a :: l)) now at_last
      exact ⟨a :: before, b, after, by rw [same, List.cons_append], without, with_it⟩

theorem prefix_append_split {part first second : List α} (sofar : part <+: first ++ second) :
    ∃ early late, part = early ++ late ∧ early <+: first ∧ late <+: second ∧ (late ≠ [] → early = first) := by
  rw [List.prefix_iff_eq_take, List.take_append] at sofar
  refine ⟨_, _, sofar, List.take_prefix _ _, List.take_prefix _ _, fun some => ?_⟩
  apply List.take_of_length_le
  by_contra short
  rw [Nat.sub_eq_zero_of_le (by omega), List.take_zero] at some
  exact some rfl

theorem exists_split_snoc {l : List α} {a b : α} {P : List α → Prop} :
    (∃ before after, l ++ [b] = before ++ a :: after ∧ P before) ↔
      (∃ before after, l = before ++ a :: after ∧ P before) ∨ (b = a ∧ P l) := by
  constructor
  · rintro ⟨before, after, same, here⟩
    rcases List.eq_nil_or_concat after with rfl | ⟨init, last, rfl⟩
    · obtain ⟨rfl, tail⟩ := List.append_inj' same rfl
      exact .inr ⟨(List.cons.inj tail).1, here⟩
    · rw [List.concat_eq_append, ← List.cons_append, ← List.append_assoc] at same
      obtain ⟨rfl, -⟩ := List.append_inj' same rfl
      exact .inl ⟨before, init, rfl, here⟩
  · rintro (⟨before, after, rfl, here⟩ | ⟨rfl, here⟩)
    · exact ⟨before, after ++ [b], by simp, here⟩
    · exact ⟨l, [], rfl, here⟩

theorem length_flatMap_lt {f g : α → List β} {l : List α} (shorter : ∀ a ∈ l, (f a).length ≤ (g a).length) {a : α} (member : a ∈ l)
    (less : (f a).length < (g a).length) : (l.flatMap f).length < (l.flatMap g).length := by
  have le (l : List α) (shorter : ∀ a ∈ l, (f a).length ≤ (g a).length) : (l.flatMap f).length ≤ (l.flatMap g).length := by
    induction l with
    | nil => simp
    | cons b l ih =>
      have head := shorter b List.mem_cons_self
      have rest := ih fun a member => shorter a (List.mem_cons_of_mem _ member)
      simp only [List.flatMap_cons, List.length_append]
      omega
  obtain ⟨before, after, rfl⟩ := List.append_of_mem member
  have front := le before fun a member => shorter a (List.mem_append_left _ member)
  have back := le after fun a member => shorter a (List.mem_append_right _ (List.mem_cons_of_mem _ member))
  simp only [List.flatMap_append, List.flatMap_cons, List.length_append]
  omega

theorem flatMap_cancel {f g : α → List β} {l : List α} (distinct : l.Nodup) {a : α} (member : a ∈ l)
    (same : ∀ b ∈ l, b ≠ a → f b = g b) (joined : l.flatMap f = l.flatMap g) : f a = g a := by
  obtain ⟨before, after, rfl⟩ := List.append_of_mem member
  obtain ⟨-, behind, apart⟩ := List.nodup_append.mp distinct
  have front : before.flatMap f = before.flatMap g :=
    List.flatMap_congr fun b early => same b (List.mem_append_left _ early) (apart b early a List.mem_cons_self)
  have back : after.flatMap f = after.flatMap g :=
    List.flatMap_congr fun b late => same b (List.mem_append_right _ (List.mem_cons_of_mem _ late))
      fun here => (List.nodup_cons.mp behind).1 (here ▸ late)
  simp only [List.flatMap_append, List.flatMap_cons, front, back] at joined
  exact List.append_cancel_right (List.append_cancel_left joined)

end Nbf.Library
