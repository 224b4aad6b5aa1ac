import Nbf.Library.Lists

/-! A stream of numbered messages on a channel that keeps their order.

The sender numbers its messages; the receiver reads only the one it expects, and
expects the next one after it. A message that is lost leaves the receiver behind
for good.
-/

set_option autoImplicit false

namespace Nbf.Library

variable {α : Type}

/-- The receiver expects number `expected`, and `lost` messages from there on are gone. Those in
flight come next, up to the number the sender has come to; `At n a` says that `a` has number `n`. -/
structure InOrder (At : Nat → α → Prop) (expected lost : Nat) (flying : List α) (sent : Nat) : Prop where
  total : sent = expected + lost + flying.length
  numbered : ∀ i a, flying[i]? = some a → At (expected + lost + i) a

namespace InOrder

variable {At : Nat → α → Prop} {expected lost sent : Nat} {flying : List α} {a : α}

theorem empty (At : Nat → α → Prop) (n : Nat) : InOrder At n 0 [] n where
  total := rfl
  numbered _ _ here := by simp at here

theorem send (order : InOrder At expected lost flying sent) (now : At sent a) :
    InOrder At expected lost (flying ++ [a]) (sent + 1) where
  total := by rw [List.length_append, List.length_singleton, order.total, Nat.add_assoc]
  numbered i b here := by
    rcases getElem?_snoc here with old | ⟨rfl, rfl⟩
    · exact order.numbered i b old
    · rwa [order.total] at now

theorem head (order : InOrder At expected lost (a :: flying) sent) : At (expected + lost) a :=
  order.numbered 0 a rfl

theorem lose (order : InOrder At expected lost (a :: flying) sent) : InOrder At expected (lost + 1) flying sent where
  total := by
    rw [order.total, List.length_cons]
    omega
  numbered i b here := by
    have later := order.numbered (i + 1) b here
    rwa [show expected + lost + (i + 1) = expected + (lost + 1) + i by omega] at later

theorem read (order : InOrder At expected 0 (a :: flying) sent) : InOrder At (expected + 1) 0 flying sent where
  total := by
    rw [order.total, List.length_cons]
    omega
  numbered i b here := by
    have later := order.numbered (i + 1) b here
    rwa [show expected + 0 + (i + 1) = expected + 1 + 0 + i by omega] at later

end InOrder
end Nbf.Library
