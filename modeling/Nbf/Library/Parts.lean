import Mathlib.Data.List.Nodup
import Mathlib.Data.List.Perm.Basic

/-! Association lists with distinct keys: the entries of a hash map. -/

set_option autoImplicit false

namespace Nbf.Library

variable {κ ν : Type}

def OnceKeyed (parts : List (κ × ν)) : Prop := (parts.map Prod.fst).Nodup

theorem keyed_nil : OnceKeyed ([] : List (κ × ν)) := List.nodup_nil

variable [DecidableEq κ]

/-- `insert`: an entry under the same key is replaced. -/
def putPart (parts : List (κ × ν)) (k : κ) (v : ν) : List (κ × ν) := (k, v) :: parts.filter fun part => part.1 ≠ k

def putParts (parts entries : List (κ × ν)) : List (κ × ν) := entries.foldl (fun parts entry => putPart parts entry.1 entry.2) parts

theorem lookup_isNone {parts : List (κ × ν)} {k : κ} : (parts.lookup k).isNone ↔ k ∉ parts.map Prod.fst := by
  induction parts with
  | nil => simp
  | cons part parts ih =>
    rw [List.lookup_cons, List.map_cons, List.mem_cons]
    by_cases same : k = part.1
    · simp [same]
    · rw [beq_eq_false_iff_ne.mpr same, ih]
      simp [same]

@[simp] theorem lookup_putPart_self (parts : List (κ × ν)) (k : κ) (v : ν) : (putPart parts k v).lookup k = some v :=
  List.lookup_cons_self

@[simp] theorem lookup_putPart_of_ne (parts : List (κ × ν)) {k j : κ} (v : ν) (apart : j ≠ k) :
    (putPart parts k v).lookup j = parts.lookup j := by
  rw [putPart, List.lookup_cons, beq_eq_false_iff_ne.mpr apart]
  induction parts with
  | nil => rfl
  | cons part parts ih =>
    rw [List.filter_cons]
    by_cases removed : part.1 = k
    · have other : j ≠ part.1 := removed ▸ apart
      rw [if_neg (by simp [removed]), List.lookup_cons, beq_eq_false_iff_ne.mpr other]
      exact ih
    · rw [if_pos (by simp [removed]), List.lookup_cons, List.lookup_cons]
      cases j == part.1 with
      | true => rfl
      | false => exact ih

theorem OnceKeyed.put {parts : List (κ × ν)} (keyed : OnceKeyed parts) (k : κ) (v : ν) : OnceKeyed (putPart parts k v) := by
  unfold OnceKeyed at keyed ⊢
  rw [putPart, List.map_cons, List.nodup_cons]
  refine ⟨?_, keyed.sublist (List.filter_sublist.map _)⟩
  intro member
  obtain ⟨part, kept, same⟩ := List.mem_map.mp member
  have apart := (List.mem_filter.mp kept).2
  simp [same] at apart

theorem length_filter_key {parts : List (κ × ν)} (keyed : OnceKeyed parts) (k : κ) :
    (parts.filter fun part => part.1 ≠ k).length + (if k ∈ parts.map Prod.fst then 1 else 0) = parts.length := by
  induction parts with
  | nil => rfl
  | cons part parts ih =>
    have rest := ih (List.nodup_cons.mp keyed).2
    rw [List.filter_cons]
    by_cases removed : part.1 = k
    · have gone : k ∉ parts.map Prod.fst := removed ▸ (List.nodup_cons.mp keyed).1
      rw [if_neg gone] at rest
      rw [if_neg (by simp [removed]), if_pos (by simp [removed]), List.length_cons, ← rest, Nat.add_zero]
    · have same : (k ∈ (part :: parts).map Prod.fst) ↔ k ∈ parts.map Prod.fst := by simp [Ne.symm removed]
      rw [if_pos (by simp [removed]), List.length_cons, List.length_cons, ← rest]
      simp only [same]
      omega

theorem length_putPart {parts : List (κ × ν)} (keyed : OnceKeyed parts) (k : κ) (v : ν) :
    (putPart parts k v).length = parts.length + if (parts.lookup k).isNone then 1 else 0 := by
  have filtered := length_filter_key keyed k
  rw [putPart, List.length_cons]
  by_cases known : k ∈ parts.map Prod.fst
  · have some : ¬ (parts.lookup k).isNone := fun none => lookup_isNone.mp none known
    rw [if_pos known] at filtered
    rw [if_neg some]
    omega
  · rw [if_neg known] at filtered
    rw [if_pos (lookup_isNone.mpr known)]
    omega

theorem putParts_append (parts first second : List (κ × ν)) :
    putParts parts (first ++ second) = putParts (putParts parts first) second := List.foldl_append

theorem OnceKeyed.putParts {parts : List (κ × ν)} (keyed : OnceKeyed parts) (entries : List (κ × ν)) : OnceKeyed (putParts parts entries) := by
  induction entries generalizing parts with
  | nil => exact keyed
  | cons entry entries ih => exact ih (keyed.put entry.1 entry.2)

theorem lookup_putParts_of_not_mem (parts : List (κ × ν)) {entries : List (κ × ν)} {k : κ} (other : k ∉ entries.map Prod.fst) :
    (putParts parts entries).lookup k = parts.lookup k := by
  induction entries generalizing parts with
  | nil => rfl
  | cons entry entries ih =>
    rw [List.map_cons, List.mem_cons, not_or] at other
    have rest := ih (putPart parts entry.1 entry.2) other.2
    rwa [lookup_putPart_of_ne _ _ other.1] at rest

theorem lookup_putParts_of_mem (parts : List (κ × ν)) {entries : List (κ × ν)} (keyed : OnceKeyed entries) {k : κ} {v : ν}
    (member : (k, v) ∈ entries) : (putParts parts entries).lookup k = some v := by
  induction entries generalizing parts with
  | nil => cases member
  | cons entry entries ih =>
    obtain ⟨fresh, keyed⟩ := List.nodup_cons.mp keyed
    rcases List.mem_cons.mp member with rfl | later
    · have kept := lookup_putParts_of_not_mem (putPart parts k v) fresh
      rwa [lookup_putPart_self] at kept
    · exact ih (putPart parts entry.1 entry.2) keyed later

theorem length_putParts {parts entries : List (κ × ν)} (keyed : OnceKeyed parts) (distinct : OnceKeyed entries) :
    (putParts parts entries).length = parts.length + entries.countP fun entry => (parts.lookup entry.1).isNone := by
  induction entries generalizing parts with
  | nil => rfl
  | cons entry entries ih =>
    obtain ⟨fresh, distinct⟩ := List.nodup_cons.mp distinct
    have rest := ih (keyed.put entry.1 entry.2) distinct
    -- The entries behind have other keys, so the first one does not change whether they are new.
    have same : (entries.countP fun later => ((putPart parts entry.1 entry.2).lookup later.1).isNone) =
        entries.countP fun later => (parts.lookup later.1).isNone := by
      apply List.countP_congr
      intro later member
      have apart : later.1 ≠ entry.1 := fun same => fresh (same ▸ List.mem_map_of_mem member)
      rw [lookup_putPart_of_ne _ _ apart]
    rw [same, length_putPart keyed] at rest
    rw [List.countP_cons]
    exact rest.trans (by omega)

end Nbf.Library
