import Mathlib.Logic.Basic

/-! Results of partial code: a value, a returned error, or a panic.

A slice out of range, a failed array conversion and an unsigned subtraction
below zero abort the running task. They are kept apart from the errors a
function returns, so that the absence of panics can be stated.
-/

set_option autoImplicit false

namespace Nbf.Library

inductive Checked (ε α : Type) where
  | panic
  | error (err : ε)
  | ok (value : α)
  deriving DecidableEq, Repr

namespace Checked

variable {ε ε' α β : Type}

def bind (x : Checked ε α) (f : α → Checked ε β) : Checked ε β :=
  match x with
  | panic => panic
  | error err => error err
  | ok value => f value

instance : Monad (Checked ε) where
  pure := ok
  bind := bind

@[simp] theorem ok_bind (value : α) (f : α → Checked ε β) : (ok value >>= f) = f value := rfl
@[simp] theorem error_bind (err : ε) (f : α → Checked ε β) :
    ((error err : Checked ε α) >>= f) = error err := rfl
@[simp] theorem panic_bind (f : α → Checked ε β) : ((panic : Checked ε α) >>= f) = panic := rfl
@[simp] theorem pure_eq (value : α) : (pure value : Checked ε α) = ok value := rfl

/-- The only way to a value of a sequence is through a value of its first part. -/
theorem bind_eq_ok {x : Checked ε α} {f : α → Checked ε β} {value : β} :
    (x >>= f) = ok value ↔ ∃ first, x = ok first ∧ f first = ok value := by
  cases x with
  | panic => simp
  | error err => simp
  | ok first => simp

/-- Rust's `map_err`. -/
def mapErr (f : ε → ε') : Checked ε α → Checked ε' α
  | panic => panic
  | error err => error (f err)
  | ok value => ok value

@[simp] theorem mapErr_ok (f : ε → ε') (value : α) : mapErr f (ok value) = ok value := rfl

theorem mapErr_eq_ok {f : ε → ε'} {x : Checked ε α} {value : α} : mapErr f x = ok value ↔ x = ok value := by
  cases x with
  | panic => simp [mapErr]
  | error err => simp [mapErr]
  | ok first => simp

/-- A call of foreign code that reports failure without a reason we use. -/
def ofOption (err : ε) : Option α → Checked ε α
  | none => error err
  | some value => ok value

@[simp] theorem ofOption_some (err : ε) (value : α) : ofOption err (some value) = ok value := rfl
@[simp] theorem ofOption_none (err : ε) : ofOption err (none : Option α) = error err := rfl

/-- Unsigned subtraction; below zero it panics. -/
def sub (a b : Nat) : Checked ε Nat := if b ≤ a then ok (a - b) else panic

@[simp] theorem sub_of_le {a b : Nat} (le : b ≤ a) : (sub a b : Checked ε Nat) = ok (a - b) := if_pos le

def isOk : Checked ε α → Bool
  | ok _ => true
  | _ => false

def isError : Checked ε α → Bool
  | error _ => true
  | _ => false

/-- A value or an error, but no panic. -/
def Returns (x : Checked ε α) : Prop := x ≠ panic

theorem returns_ok (value : α) : (ok value : Checked ε α).Returns := by simp [Returns]

theorem returns_error (err : ε) : (error err : Checked ε α).Returns := by simp [Returns]

theorem returns_ofOption (err : ε) (x : Option α) : (ofOption err x).Returns := by
  cases x with
  | none => exact returns_error err
  | some value => exact returns_ok value

theorem Returns.bind {x : Checked ε α} {f : α → Checked ε β} (first : x.Returns)
    (rest : ∀ value, x = ok value → (f value).Returns) : (x >>= f).Returns := by
  cases x with
  | panic => exact absurd rfl first
  | error err => exact returns_error err
  | ok value => exact rest value rfl

theorem Returns.mapErr {x : Checked ε α} (returns : x.Returns) (f : ε → ε') : (x.mapErr f).Returns := by
  cases x with
  | panic => exact absurd rfl returns
  | error err => exact returns_error (f err)
  | ok value => exact returns_ok value

theorem returns_ite {p : Prop} [Decidable p] {x y : Checked ε α} (yes : p → x.Returns) (no : ¬ p → y.Returns) :
    (if p then x else y).Returns := by
  split
  next holds => exact yes holds
  next fails => exact no fails

theorem returns_guard {p : Prop} [Decidable p] {err : ε} {x : Checked ε α} (passes : ¬ p → x.Returns) :
    (if p then error err else x).Returns := returns_ite (fun _ => returns_error err) passes

theorem returns_arm {p : Prop} [Decidable p] {value : α} {x : Checked ε α} (others : x.Returns) :
    (if p then ok value else x).Returns := returns_ite (fun _ => returns_ok value) fun _ => others

end Checked

theorem except_bind_eq_ok {ε α β : Type} {x : Except ε α} {f : α → Except ε β} {value : β} :
    (x >>= f) = .ok value ↔ ∃ first, x = .ok first ∧ f first = .ok value := by
  constructor
  · intro same
    cases x with
    | error err => cases same
    | ok first => exact ⟨first, rfl, same⟩
  · rintro ⟨first, rfl, rest⟩
    exact rest

end Nbf.Library
