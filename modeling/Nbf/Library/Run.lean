import Mathlib.Data.List.Basic

/-! Runs of labelled transition systems.

A system is a relation between a state, a label and the state after it. What
one step preserves is carried to every run by one of the rules below.
-/

set_option autoImplicit false

namespace Nbf.Library

variable {σ ι ο : Type}

/-- A finite run with the labels of its steps, oldest first. -/
inductive Run (step : σ → ι → σ → Prop) : σ → List ι → σ → Prop where
  | nil (s : σ) : Run step s [] s
  | snoc {s t u : σ} {labels : List ι} {label : ι} :
      Run step s labels t → step t label u → Run step s (labels ++ [label]) u

/-- The steps of a system that meet a condition on their state, label and result. -/
def Such (step : σ → ι → σ → Prop) (cond : σ → ι → σ → Prop) : σ → ι → σ → Prop :=
  fun s label t => step s label t ∧ cond s label t

namespace Run

variable {step step' : σ → ι → σ → Prop}

theorem single {s t : σ} {label : ι} (h : step s label t) : Run step s [label] t := .snoc (.nil s) h

theorem trans {s t u : σ} {first second : List ι} (left : Run step s first t)
    (right : Run step t second u) : Run step s (first ++ second) u := by
  induction right with
  | nil => simpa using left
  | snoc _ last ih => rw [← List.append_assoc]; exact .snoc ih last

theorem cons {s t u : σ} {label : ι} {labels : List ι} (first : step s label t)
    (rest : Run step t labels u) : Run step s (label :: labels) u :=
  (single first).trans rest

theorem eq_or_first {s t : σ} {labels : List ι} (run : Run step s labels t) :
    s = t ∨ ∃ label u rest, step s label u ∧ Run step u rest t := by
  induction run with
  | nil => exact .inl rfl
  | snoc _ last ih =>
    rcases ih with same | ⟨label, u, rest, first, later⟩
    · exact .inr ⟨_, _, [], same ▸ last, .nil _⟩
    · exact .inr ⟨label, u, _, first, .snoc later last⟩

theorem induct_first {motive : σ → Prop} {s t : σ} {labels : List ι} (run : Run step s labels t) (last : motive t)
    (first : ∀ s label u, step s label u → motive u → motive s) : motive s := by
  induction run with
  | nil => exact last
  | snoc _ final ih => exact ih (first _ _ _ final last)

theorem mono {s t : σ} {labels : List ι} (run : Run step s labels t)
    (imp : ∀ s label t, step s label t → step' s label t) : Run step' s labels t := by
  induction run with
  | nil => exact .nil _
  | snoc _ last ih => exact .snoc ih (imp _ _ _ last)

theorem of_foldlM {next : σ → ι → Option σ} {labels : List ι} {s t : σ} (computed : labels.foldlM next s = some t) :
    Run (fun s label t => next s label = some t) s labels t := by
  induction labels generalizing s with
  | nil => exact Option.some.inj computed ▸ .nil s
  | cons label labels ih =>
    obtain ⟨u, first, rest⟩ := Option.bind_eq_some_iff.mp computed
    exact (ih rest).cons first

theorem forget {cond : σ → ι → σ → Prop} {s t : σ} {labels : List ι}
    (run : Run (Such step cond) s labels t) : Run step s labels t :=
  run.mono fun _ _ _ h => h.1

theorem such_of {cond : σ → ι → σ → Prop} {s t : σ} {labels : List ι} (run : Run step s labels t)
    (all : ∀ label ∈ labels, ∀ s t, cond s label t) : Run (Such step cond) s labels t := by
  induction run with
  | nil => exact .nil _
  | snoc _ last ih =>
    exact .snoc (ih fun label member => all label (List.mem_append_left _ member)) ⟨last, all _ (by simp) _ _⟩

/-- What every step preserves holds at the end of a run from a state where it holds. -/
theorem invariant (inv : σ → Prop) (preserve : ∀ s label t, inv s → step s label t → inv t)
    {s t : σ} {labels : List ι} (run : Run step s labels t) (start : inv s) : inv t := by
  induction run with
  | nil => exact start
  | snoc _ last ih => exact preserve _ _ _ ih last

theorem length_le (inv : σ → Prop) (measure : σ → Nat) (preserve : ∀ s label t, inv s → step s label t → inv t)
    (decrease : ∀ s label t, inv s → step s label t → measure t < measure s) {s t : σ} {labels : List ι}
    (run : Run step s labels t) (start : inv s) : labels.length + measure t ≤ measure s := by
  induction run with
  | nil => simp
  | snoc before last ih =>
    have less := decrease _ _ _ (before.invariant inv preserve start) last
    rw [List.length_append, List.length_singleton]
    omega

/-- Two conditions that agree on the steps taken in the states of an invariant select the same runs. -/
theorem such_iff (inv : σ → Prop) {cond cond' : σ → ι → σ → Prop}
    (preserve : ∀ s label t, inv s → Such step cond s label t → inv t)
    (agree : ∀ s label t, inv s → step s label t → (cond s label t ↔ cond' s label t))
    {s t : σ} {labels : List ι} (start : inv s) :
    Run (Such step cond) s labels t ↔ Run (Such step cond') s labels t := by
  constructor
  · intro run
    induction run with
    | nil => exact .nil _
    | snoc before last ih => exact .snoc ih ⟨last.1, (agree _ _ _ (before.invariant inv preserve start) last.1).mp last.2⟩
  · intro run
    induction run with
    | nil => exact .nil _
    | snoc _ last ih => exact .snoc ih ⟨last.1, (agree _ _ _ (ih.invariant inv preserve start) last.1).mpr last.2⟩

end Run

/-- A system with a log: each step appends what it lets an observer see. -/
def Logged (step : σ → ι → σ → Prop) (observe : σ → ι → List ο) :
    σ × List ο → ι → σ × List ο → Prop :=
  fun s label t => step s.1 label t.1 ∧ t.2 = s.2 ++ observe s.1 label

theorem Run.logged {step : σ → ι → σ → Prop} {observe : σ → ι → List ο} {s t : σ} {labels : List ι}
    (run : Run step s labels t) (log : List ο) : ∃ log', Run (Logged step observe) (s, log) labels (t, log') := by
  induction run with
  | nil => exact ⟨log, .nil _⟩
  | snoc _ last ih =>
    obtain ⟨log', before⟩ := ih
    exact ⟨_, .snoc before ⟨last, rfl⟩⟩

/-- A path on which no state offers a choice of the state after it. -/
inductive Forced (step : σ → ι → σ → Prop) : σ → σ → Prop where
  | refl (s : σ) : Forced step s s
  | next {s t u : σ} {label : ι} : step s label t → (∀ label' t', step s label' t' → t' = t) →
      Forced step t u → Forced step s u

namespace Forced

variable {step : σ → ι → σ → Prop}

theorem trans {s t u : σ} (left : Forced step s t) (right : Forced step t u) : Forced step s u := by
  induction left with
  | refl => exact right
  | next first only _ ih => exact .next first only (ih right)

theorem toRun {s t : σ} (path : Forced step s t) : ∃ labels, Run step s labels t := by
  induction path with
  | refl s => exact ⟨[], .nil s⟩
  | next first _ _ ih =>
    obtain ⟨labels, rest⟩ := ih
    exact ⟨_, rest.cons first⟩

/-- A run from the start of a forced path passes its end, or has not come to it yet. -/
theorem run_through {s t u : σ} {labels : List ι} (path : Forced step s t) (run : Run step s labels u) :
    (∃ later, Run step t later u) ∨ Forced step u t := by
  -- Induction along the path: the run makes its steps one by one, or ends on it.
  induction path generalizing labels with
  | refl => exact .inl ⟨labels, run⟩
  | next first only rest ih =>
    rcases run.eq_or_first with rfl | ⟨label, _, labels, other, later⟩
    · exact .inr (.next first only rest)
    · rw [only _ _ other] at later
      exact ih later

/-- Every run that has come to rest has come to the end of the forced path. -/
theorem run_ends {s t u : σ} {labels : List ι} (path : Forced step s t) (rest : ∀ label v, ¬ step t label v)
    (run : Run step s labels u) (stuck : ∀ label v, ¬ step u label v) : u = t := by
  rcases path.run_through run with ⟨_, later⟩ | early
  · rcases later.eq_or_first with same | ⟨label, next, _, first, _⟩
    · exact same.symm
    · exact absurd first (rest label next)
  · cases early with
    | refl => rfl
    | next first _ _ => exact absurd first (stuck _ _)

end Forced

end Nbf.Library
