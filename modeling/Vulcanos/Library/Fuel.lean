import Mathlib.Data.Nat.Init

/-!
# Computations with a budget

A recursion that may only go so deep either runs out of its budget or has a result that does not
change when the budget grows. The first is an error like any other, so sequences of computations
inherit the property from their parts.
-/

namespace Vulcanos.Fuel

variable {ε α β : Type} {stop : ε}

/-- The first computation has stopped for want of budget, or it is the second. -/
def Below (stop : ε) (x y : Except ε α) : Prop := x = .error stop ∨ x = y

variable {x y z : Except ε α} {f g : α → Except ε β}

theorem Below.refl (x : Except ε α) : Below stop x x := Or.inr rfl

theorem Below.trans (h : Below stop x y) (h' : Below stop y z) : Below stop x z := by
  rcases h with h | rfl
  · exact Or.inl h
  · exact h'

theorem Below.bind (h : Below stop x y) (hf : ∀ a, Below stop (f a) (g a)) :
    Below stop (x >>= f) (y >>= g) := by
  rcases h with rfl | rfl
  · exact Or.inl rfl
  · cases x with
    | error e => exact Or.inr rfl
    | ok a => exact hf a

theorem Below.eq (h : Below stop x y) (hx : x ≠ .error stop) : y = x := by
  rcases h with h | h
  · exact absurd h hx
  · exact h.symm

theorem ok_ne_stop (a : α) : (.ok a : Except ε α) ≠ .error stop := fun heq => nomatch heq

theorem bind_ne_stop (h : x ≠ .error stop) (hf : ∀ a, x = .ok a → f a ≠ .error stop) :
    x >>= f ≠ .error stop := by
  cases x with
  | error e => exact fun heq => h (congrArg Except.error (Except.error.inj heq))
  | ok a => exact hf a rfl

theorem below_of_le {r : Nat → Except ε α} (h : ∀ n, Below stop (r n) (r (n + 1)))
    {n m : Nat} (hle : n ≤ m) : Below stop (r n) (r m) := by
  induction hle with
  | refl => exact Below.refl _
  | step _ ih => exact ih.trans (h _)

/-- With another budget a computation runs out, or has the result that one of them has had. -/
theorem eq_stop_or_eq {r : Nat → Except ε α} (h : ∀ n, Below stop (r n) (r (n + 1))) {n : Nat}
    (hn : r n ≠ .error stop) (m : Nat) : r m = .error stop ∨ r m = r n := by
  rcases Nat.le_total m n with hle | hle
  · exact below_of_le h hle
  · exact Or.inr ((below_of_le h hle).eq hn)

end Vulcanos.Fuel
