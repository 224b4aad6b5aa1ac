import Mathlib.Data.Finset.Card
import Mathlib.Data.List.Perm.Subperm

/-! Walks along a partial function until it has no next place. -/

set_option autoImplicit false

namespace Nbf.Library

variable {α : Type}

/-- From a place to a place without a successor, by these places (the last one left out). -/
inductive Walk (next : α → Option α) : α → List α → α → Prop where
  | done {a : α} : next a = none → Walk next a [] a
  | step {a b c : α} {path : List α} : next a = some b → Walk next b path c → Walk next a (a :: path) c

namespace Walk

variable {next : α → Option α}

theorem unique {a c d : α} {path path' : List α} (walk : Walk next a path c) (walk' : Walk next a path' d) :
    path = path' := by
  induction walk generalizing path' with
  | done halt =>
    cases walk' with
    | done _ => rfl
    | step go _ => rw [halt] at go; cases go
  | step go _ ih =>
    cases walk' with
    | done halt => rw [halt] at go; cases go
    | step go' rest =>
      rw [go, Option.some.injEq] at go'
      rw [ih (go' ▸ rest)]

theorem next_isSome {a c : α} {path : List α} (walk : Walk next a path c) {b : α} (member : b ∈ path) :
    (next b).isSome := by
  induction walk with
  | done _ => simp at member
  | step go _ ih =>
    rcases List.mem_cons.mp member with rfl | later
    · rw [go]; rfl
    · exact ih later

theorem suffix {a c : α} {path : List α} (walk : Walk next a path c) {b : α} (member : b ∈ path) :
    ∃ later, Walk next b later c ∧ later.length ≤ path.length := by
  induction walk with
  | done _ => simp at member
  | step go rest ih =>
    rcases List.mem_cons.mp member with rfl | later
    · exact ⟨_, .step go rest, Nat.le_refl _⟩
    · obtain ⟨path, walk, shorter⟩ := ih later
      exact ⟨path, walk, Nat.le_succ_of_le shorter⟩

/-- A walk that comes to an end was nowhere twice. -/
theorem nodup {a c : α} {path : List α} (walk : Walk next a path c) : path.Nodup := by
  induction walk with
  | done _ => exact .nil
  | step go rest ih =>
    refine List.nodup_cons.mpr ⟨fun again => ?_, ih⟩
    -- Another walk from the same place would be shorter, but there is only one.
    obtain ⟨later, walk, shorter⟩ := rest.suffix again
    have same := congrArg List.length ((Walk.step go rest).unique walk)
    rw [List.length_cons] at same
    omega

theorem length_le {a c : α} {path places : List α} (walk : Walk next a path c) (within : path ⊆ places) :
    path.length ≤ places.length := (walk.nodup.subperm within).length_le

end Walk

/-! ## Places that are come back to -/

variable (next : α → Option α)

def along (a : α) : Nat → Option α
  | 0 => some a
  | n + 1 => (next a).bind fun b => along b n

def ComesBack (a : α) : Prop := ∃ n k b, 0 < k ∧ along next a n = some b ∧ along next b k = some b

variable {next}

theorem along_add (a : α) (m n : Nat) : along next a (m + n) = (along next a m).bind fun b => along next b n := by
  induction m generalizing a with
  | zero => rw [Nat.zero_add]; rfl
  | succ m ih =>
    rw [Nat.succ_add, along, along, Option.bind_assoc]
    exact congrArg _ (funext fun b => ih b)

theorem along_succ (a : α) (n : Nat) : along next a (n + 1) = (along next a n).bind next := by
  rw [along_add]
  exact congrArg _ (funext fun b => Option.bind_fun_some (next b))

theorem along_lt {a b : α} {m n : Nat} (there : along next a m = some b) (end_ : along next a n = none) : m < n := by
  by_contra beyond
  obtain ⟨more, rfl⟩ := Nat.exists_eq_add_of_le (Nat.le_of_not_lt beyond)
  rw [along_add, end_, Option.bind_none] at there
  cases there

/-- On finitely many places, the way ends exactly if it comes back to none of them. -/
theorem along_ends_iff {places : List α} (within : ∀ a, (next a).isSome → a ∈ places) (a : α) :
    (∃ n, along next a n = none) ↔ ¬ ComesBack next a := by
  constructor
  · rintro ⟨end_, none⟩ ⟨n, k, b, positive, there, back⟩
    -- Round and round, it goes beyond any number of steps.
    have around (times : Nat) : along next b (times * k) = some b := by
      induction times with
      | zero => rw [Nat.zero_mul]; rfl
      | succ times ih => rw [Nat.succ_mul, along_add, ih, Option.bind_some, back]
    have far : along next a (n + end_ * k) = some b := by rw [along_add, there, Option.bind_some, around]
    have within := along_lt far none
    have long : end_ ≤ end_ * k := Nat.le_mul_of_pos_right end_ positive
    omega
  · intro never
    by_contra endless
    -- One of the places is met twice.
    have some (n : Nat) : ∃ b ∈ places, along next a n = some b := by
      cases here : along next a n with
      | none => exact absurd ⟨n, here⟩ endless
      | some b =>
        refine ⟨b, within b ?_, rfl⟩
        by_contra halt
        refine endless ⟨n + 1, ?_⟩
        rw [along_add, here, Option.bind_some, along, Option.not_isSome_iff_eq_none.mp halt, Option.bind_none]
    choose at_ member here using some
    classical
    obtain ⟨i, -, j, -, apart, same⟩ := Finset.exists_ne_map_eq_of_card_lt_of_maps_to
      (s := Finset.range (places.length + 1)) (t := places.toFinset) (f := at_)
      (by rw [Finset.card_range]; exact Nat.lt_succ_of_le places.toFinset_card_le)
      (fun n _ => List.mem_toFinset.mpr (member n))
    have comes {i j : Nat} (lt : i < j) (same : at_ i = at_ j) : ComesBack next a := by
      obtain ⟨k, rfl⟩ := Nat.exists_eq_add_of_lt lt
      refine ⟨i, k + 1, at_ i, Nat.succ_pos k, here i, ?_⟩
      have later := here (i + k + 1)
      rw [Nat.add_assoc, along_add, here i, Option.bind_some] at later
      rw [later, same]
      rfl
    rcases Nat.lt_or_gt_of_ne apart with before | after
    · exact never (comes before same)
    · exact never (comes after same.symm)

end Nbf.Library
