import Mathlib.Logic.Function.Basic

/-! Finite maps as the code uses them: lookup, insert, remove. -/

set_option autoImplicit false

namespace Nbf.Library

def Table (κ ν : Type) : Type := κ → Option ν

namespace Table

variable {κ ν : Type}

def empty : Table κ ν := fun _ => none

instance : Inhabited (Table κ ν) := ⟨empty⟩

def get (m : Table κ ν) (k : κ) : Option ν := m k

@[ext] theorem ext {m m' : Table κ ν} (same : ∀ k, m.get k = m'.get k) : m = m' := funext same

@[simp] theorem get_empty (k : κ) : (empty : Table κ ν).get k = none := rfl

variable [DecidableEq κ]

def insert (m : Table κ ν) (k : κ) (v : ν) : Table κ ν := Function.update m k (some v)

def remove (m : Table κ ν) (k : κ) : Table κ ν := Function.update m k none

@[simp] theorem get_insert_self (m : Table κ ν) (k : κ) (v : ν) : (m.insert k v).get k = some v :=
  Function.update_self ..

@[simp] theorem get_insert_of_ne (m : Table κ ν) {k j : κ} (v : ν) (h : j ≠ k) :
    (m.insert k v).get j = m.get j := Function.update_of_ne h ..

theorem get_insert (m : Table κ ν) (k j : κ) (v : ν) :
    (m.insert k v).get j = if j = k then some v else m.get j := by
  by_cases h : j = k
  · subst h; simp
  · simp [h]

@[simp] theorem get_remove_self (m : Table κ ν) (k : κ) : (m.remove k).get k = none :=
  Function.update_self ..

@[simp] theorem get_remove_of_ne (m : Table κ ν) {k j : κ} (h : j ≠ k) :
    (m.remove k).get j = m.get j := Function.update_of_ne h ..

theorem get_remove (m : Table κ ν) (k j : κ) :
    (m.remove k).get j = if j = k then none else m.get j := by
  by_cases h : j = k
  · subst h; simp
  · simp [h]

theorem get_insert_some {m : Table κ ν} {k j : κ} {v w : ν} (here : (m.insert k v).get j = some w) :
    (j = k ∧ v = w) ∨ (j ≠ k ∧ m.get j = some w) := by
  rw [get_insert] at here
  split at here
  next same => exact .inl ⟨same, Option.some.inj here⟩
  next apart => exact .inr ⟨apart, here⟩

theorem get_remove_some {m : Table κ ν} {k j : κ} {w : ν} (here : (m.remove k).get j = some w) : m.get j = some w := by
  rw [get_remove] at here
  split at here
  · cases here
  · exact here

theorem ne_of_get_remove {m : Table κ ν} {k j : κ} {w : ν} (here : (m.remove k).get j = some w) : j ≠ k := by
  rintro rfl
  rw [get_remove_self] at here
  cases here

@[simp] theorem insert_insert (m : Table κ ν) (k : κ) (v w : ν) : (m.insert k v).insert k w = m.insert k w :=
  Function.update_idem ..

@[simp] theorem remove_insert (m : Table κ ν) (k : κ) (v : ν) : (m.insert k v).remove k = m.remove k :=
  Function.update_idem ..

@[simp] theorem insert_remove (m : Table κ ν) (k : κ) (v : ν) : (m.remove k).insert k v = m.insert k v :=
  Function.update_idem ..

theorem remove_of_none (m : Table κ ν) {k : κ} (h : m.get k = none) : m.remove k = m :=
  (Function.update_eq_self_iff ..).mpr h.symm

theorem insert_get_self (m : Table κ ν) {k : κ} {v : ν} (h : m.get k = some v) : m.insert k v = m := by
  ext1 j
  rw [get_insert]
  split
  next same => rw [same, h]
  next => rfl

theorem single_insert {m : Table κ ν} {k : κ} {v : ν} (fresh : ∀ j, m.get j ≠ some v)
    (single : ∀ i j w, m.get i = some w → m.get j = some w → j = i) (i j : κ) (w : ν)
    (one : (m.insert k v).get i = some w) (two : (m.insert k v).get j = some w) : j = i := by
  rcases get_insert_some one with ⟨rfl, rfl⟩ | ⟨-, old⟩
  · rcases get_insert_some two with ⟨same, -⟩ | ⟨-, old'⟩
    · exact same
    · exact absurd old' (fresh j)
  · rcases get_insert_some two with ⟨-, rfl⟩ | ⟨-, old'⟩
    · exact absurd old (fresh i)
    · exact single i j w old old'

end Table
end Nbf.Library
