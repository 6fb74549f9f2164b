/-!
# `panic.c`

A failed `ASSERT` and a `PANIC` both print and then loop forever, so a call that reaches one returns
nothing. The text is what the source prints: the asserted expression, or the message.
-/

namespace Vulcanos

/-- How a call can end without returning. `outOfFuel` belongs to the model: a recursion or a loop
that has used up the steps it was given. -/
inductive Stop where
  | panicAssert (desc : String)
  | panic (message : String)
  | outOfFuel
deriving Repr, DecidableEq

/-- `ASSERT(b)`. -/
def assertThat (b : Bool) (desc : String) : Except Stop Unit :=
  if b then .ok () else .error (.panicAssert desc)

theorem assertThat_of {b : Prop} [Decidable b] (desc : String) (h : b) :
    assertThat (decide b) desc = .ok () := if_pos (decide_eq_true h)

theorem assertThat_eq_ok {b : Bool} {desc : String} {u : Unit} :
    assertThat b desc = .ok u ↔ b = true := by
  unfold assertThat
  cases b <;> simp

theorem ok_bind {α β : Type} (a : α) (f : α → Except Stop β) : (Except.ok a >>= f) = f a := rfl

theorem bind_eq_ok {α β : Type} {x : Except Stop α} {f : α → Except Stop β} {b : β} :
    x >>= f = .ok b ↔ ∃ a, x = .ok a ∧ f a = .ok b := by
  cases x <;> simp [bind, Except.bind]

end Vulcanos
