import Mathlib.Data.Finset.Max
import Mathlib.Data.Finset.Card
import Mathlib.Data.Finset.Union
import Mathlib.Data.Finset.Dedup

/-! The members of a finite set that rank lowest.

A table that keeps the `n` lowest of what it is given, and forgets the rest, keeps
the `n` lowest of all it has ever been given.
-/

set_option autoImplicit false

namespace Nbf.Library

variable {ι δ : Type} [LinearOrder δ]

def below (rank : ι → δ) (s : Finset ι) (i : ι) : Finset ι := s.filter fun j => rank j < rank i

/-- The `n` members of `s` that rank lowest, or all of `s` if there are fewer. -/
def nearest (rank : ι → δ) (n : Nat) (s : Finset ι) : Finset ι := s.filter fun i => (below rank s i).card < n

variable {rank : ι → δ} {n : Nat} {s t : Finset ι} {i : ι}

theorem mem_below {j : ι} : j ∈ below rank s i ↔ j ∈ s ∧ rank j < rank i := Finset.mem_filter

theorem mem_nearest : i ∈ nearest rank n s ↔ i ∈ s ∧ (below rank s i).card < n := Finset.mem_filter

theorem below_mono (sub : s ⊆ t) (i : ι) : below rank s i ⊆ below rank t i := Finset.filter_subset_filter _ sub

theorem nearest_subset (rank : ι → δ) (n : Nat) (s : Finset ι) : nearest rank n s ⊆ s := Finset.filter_subset _ _

theorem mem_nearest_of_subset (sub : s ⊆ t) (member : i ∈ s) (among : i ∈ nearest rank n t) : i ∈ nearest rank n s :=
  mem_nearest.mpr ⟨member, Nat.lt_of_le_of_lt (Finset.card_le_card (below_mono sub i)) (mem_nearest.mp among).2⟩

theorem nearest_of_card_le (few : s.card ≤ n) : nearest rank n s = s := by
  apply Finset.filter_true_of_mem
  intro i member
  have fewer : (below rank s i).card < s.card := by
    apply Finset.card_lt_card
    exact Finset.filter_ssubset.mpr ⟨i, member, lt_irrefl _⟩
  omega

variable [DecidableEq ι]

theorem card_below_nearest {j : ι} (lower : j ∈ below rank s i) (missing : j ∉ nearest rank n s) :
    n ≤ (below rank (nearest rank n s) i).card := by
  -- The lowest of the members that are missing: all below it are there, and there are `n` of them.
  obtain ⟨least, here, minimal⟩ := Finset.exists_min_image ((below rank s i).filter (· ∉ nearest rank n s)) rank
    ⟨j, Finset.mem_filter.mpr ⟨lower, missing⟩⟩
  obtain ⟨lower, missing⟩ := Finset.mem_filter.mp here
  obtain ⟨member, less⟩ := mem_below.mp lower
  have full : n ≤ (below rank s least).card := by
    by_contra few
    exact missing (mem_nearest.mpr ⟨member, Nat.lt_of_not_le few⟩)
  apply full.trans
  apply Finset.card_le_card
  intro lower' here'
  obtain ⟨member', less'⟩ := mem_below.mp here'
  have there : lower' ∈ nearest rank n s := by
    by_contra gone
    have among : lower' ∈ (below rank s i).filter (· ∉ nearest rank n s) :=
      Finset.mem_filter.mpr ⟨mem_below.mpr ⟨member', less'.trans less⟩, gone⟩
    exact absurd (minimal lower' among) (not_le_of_gt less')
  exact mem_below.mpr ⟨there, less'.trans less⟩

/-- Nothing is lost by forgetting all but the lowest before more comes in. -/
theorem nearest_absorb (rank : ι → δ) (n : Nat) (s t : Finset ι) :
    nearest rank n (nearest rank n s ∪ t) = nearest rank n (s ∪ t) := by
  have sub : nearest rank n s ∪ t ⊆ s ∪ t := Finset.union_subset_union_left (nearest_subset rank n s)
  ext i
  constructor
  · intro among
    obtain ⟨member, few⟩ := mem_nearest.mp among
    -- What is below `i` and left out would leave `n` others below `i`.
    have same : below rank (s ∪ t) i ⊆ below rank (nearest rank n s ∪ t) i := by
      intro j lower
      obtain ⟨either, less⟩ := mem_below.mp lower
      rcases Finset.mem_union.mp either with old | new
      · by_cases kept : j ∈ nearest rank n s
        · exact mem_below.mpr ⟨Finset.mem_union_left _ kept, less⟩
        · have full := card_below_nearest (mem_below.mpr ⟨old, less⟩) kept
          have part : nearest rank n s ⊆ nearest rank n s ∪ t := Finset.subset_union_left
          have more : (below rank (nearest rank n s) i).card ≤ _ := Finset.card_le_card (below_mono part i)
          omega
      · exact mem_below.mpr ⟨Finset.mem_union_right _ new, less⟩
    exact mem_nearest.mpr ⟨sub member, Nat.lt_of_le_of_lt (Finset.card_le_card same) few⟩
  · intro among
    apply mem_nearest_of_subset sub _ among
    rcases Finset.mem_union.mp (nearest_subset rank n _ among) with old | new
    · exact Finset.mem_union_left _ (mem_nearest_of_subset Finset.subset_union_left old among)
    · exact Finset.mem_union_right _ new

theorem card_nearest (injective : Function.Injective rank) (n : Nat) (s : Finset ι) :
    (nearest rank n s).card = min n s.card := by
  -- By adding the members of `s` in their order: the last one counts if there is still room.
  induction s using Finset.induction_on_max_value rank with
  | empty => simp [nearest]
  | insert top s fresh highest ih =>
    have under : ∀ j ∈ s, rank j < rank top := fun j member =>
      lt_of_le_of_ne (highest j member) fun same => fresh (injective same ▸ member)
    have atTop : below rank (insert top s) top = s := by
      ext j
      rw [mem_below, Finset.mem_insert]
      constructor
      · rintro ⟨rfl | member, less⟩
        · exact absurd less (lt_irrefl _)
        · exact member
      · exact fun member => ⟨.inr member, under j member⟩
    have elsewhere : ∀ i ∈ s, below rank (insert top s) i = below rank s i := by
      intro i member
      exact Finset.filter_insert _ _ _ |>.trans (if_neg (not_lt_of_gt (under i member)))
    have inner : s.filter (fun i => (below rank (insert top s) i).card < n) = nearest rank n s :=
      Finset.filter_congr fun i member => by rw [elsewhere i member]
    rw [nearest, Finset.filter_insert, atTop, inner]
    split
    next room =>
      rw [Finset.card_insert_of_notMem fun kept => fresh (nearest_subset rank n s kept), Finset.card_insert_of_notMem fresh, ih]
      omega
    next full =>
      rw [Finset.card_insert_of_notMem fresh, ih]
      omega

theorem toFinset_take {l : List ι} (ascending : l.Pairwise fun a b => rank a < rank b) (n : Nat) :
    (l.take n).toFinset = nearest rank n l.toFinset := by
  induction l generalizing n with
  | nil =>
    rw [List.take_nil]
    rfl
  | cons head tail ih =>
    obtain ⟨first, rest⟩ := List.pairwise_cons.mp ascending
    have fresh : head ∉ tail.toFinset := fun member => lt_irrefl _ (first head (List.mem_toFinset.mp member))
    have none : below rank (head :: tail).toFinset head = ∅ := by
      apply Finset.filter_false_of_mem
      intro j member
      rcases List.mem_cons.mp (List.mem_toFinset.mp member) with rfl | later
      · exact lt_irrefl _
      · exact not_lt_of_gt (first j later)
    have further : ∀ i ∈ tail.toFinset, (below rank (head :: tail).toFinset i).card = (below rank tail.toFinset i).card + 1 := by
      intro i member
      have cut : below rank (head :: tail).toFinset i = insert head (below rank tail.toFinset i) := by
        rw [List.toFinset_cons]
        exact Finset.filter_insert _ _ _ |>.trans (if_pos (first i (List.mem_toFinset.mp member)))
      rw [cut, Finset.card_insert_of_notMem fun lower => fresh (mem_below.mp lower).1]
    cases n with
    | zero => simp [nearest]
    | succ n =>
      rw [List.take_succ_cons, List.toFinset_cons, ih rest n]
      ext i
      rw [Finset.mem_insert, mem_nearest, mem_nearest, List.toFinset_cons, Finset.mem_insert, ← List.toFinset_cons]
      constructor
      · rintro (rfl | ⟨member, few⟩)
        · rw [none]
          exact ⟨.inl rfl, Nat.succ_pos n⟩
        · rw [further i member]
          exact ⟨.inr member, Nat.succ_lt_succ few⟩
      · rintro ⟨rfl | member, few⟩
        · exact .inl rfl
        · rw [further i member] at few
          exact .inr ⟨member, Nat.lt_of_succ_lt_succ few⟩

end Nbf.Library
