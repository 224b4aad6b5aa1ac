import Nbf.Library.Run

/-! Systems with steps that leave no trace.

Where a map of the states erases all that some steps do, and no other step needs
what they do, the system goes through exactly the runs of the erased one, with such
steps in between.
-/

set_option autoImplicit false

namespace Nbf.Library

variable {σ τ ι : Type} {step : σ → ι → σ → Prop} {plain : τ → ι → τ → Prop} {erase : σ → τ} {silent : ι → Bool}

/-- Silent steps show in nothing that `erase` leaves, the others are steps of the plain system, and every step of the plain
system can be taken after some silent ones. -/
structure Erases (step : σ → ι → σ → Prop) (plain : τ → ι → τ → Prop) (erase : σ → τ) (silent : ι → Bool) : Prop where
  unseen : ∀ s label t, step s label t → silent label → erase t = erase s
  seen : ∀ s label t, step s label t → silent label = false → plain (erase s) label (erase t)
  back : ∀ s label u, plain (erase s) label u → silent label = false →
    ∃ before t, Run step s (before ++ [label]) t ∧ (∀ other ∈ before, silent other) ∧ erase t = u

namespace Erases

theorem run (erases : Erases step plain erase silent) {s t : σ} {labels : List ι} (run : Run step s labels t) :
    Run plain (erase s) (labels.filter fun label => !silent label) (erase t) := by
  induction run with
  | nil => exact .nil _
  | @snoc t u labels label _ last ih =>
    rw [List.filter_append]
    cases quiet : silent label with
    | true =>
      rw [erases.unseen _ _ _ last quiet]
      simpa [quiet] using ih
    | false =>
      simpa [quiet] using ih.snoc (erases.seen _ _ _ last quiet)

theorem run_back (erases : Erases step plain erase silent) {s : σ} {u : τ} {labels : List ι}
    (run : Run plain (erase s) labels u) (loud : ∀ label ∈ labels, silent label = false) :
    ∃ all t, Run step s all t ∧ (all.filter fun label => !silent label) = labels ∧ erase t = u := by
  induction run with
  | nil => exact ⟨[], s, .nil s, rfl, rfl⟩
  | @snoc t u labels label _ last ih =>
    obtain ⟨all, t, run, same, rfl⟩ := ih fun other member => loud other (List.mem_append_left _ member)
    have heard : silent label = false := loud label (by simp)
    obtain ⟨before, t', more, quiet, same'⟩ := erases.back _ _ _ last heard
    -- The silent steps that come first leave no label behind.
    refine ⟨_, t', run.trans more, ?_, same'⟩
    have none : (before.filter fun label => !silent label) = [] :=
      List.filter_eq_nil_iff.mpr fun other member => by simp [quiet other member]
    simp [same, none, heard]

/-- The plain system does exactly what the system does, less the silent steps. -/
theorem run_iff (erases : Erases step plain erase silent) {s : σ} {u : τ} {labels : List ι}
    (loud : ∀ label ∈ labels, silent label = false) :
    Run plain (erase s) labels u ↔ ∃ all t, Run step s all t ∧ (all.filter fun label => !silent label) = labels ∧ erase t = u := by
  refine ⟨fun run => erases.run_back run loud, ?_⟩
  rintro ⟨all, t, run, rfl, rfl⟩
  exact erases.run run

end Erases
end Nbf.Library
