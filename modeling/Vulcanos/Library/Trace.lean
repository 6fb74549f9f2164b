import Mathlib.Data.List.Basic

/-!
# Traces of a resource

A computation that may fail uses a resource on its way. A trace is the list of these uses, each of
which knows what the resource is before it and after it. Traces follow the computation: what fails
has the trace of what came first, and what returns hands the resource on.
-/

namespace Vulcanos.Trace

variable {ρ ω ε α β : Type}

/-- The trace of what comes after a computation, if it returns. -/
def next (r : Except ε α) (f : α → List ω) : List ω :=
  match r with
  | .ok x => f x
  | .error _ => []

@[simp]
theorem next_error (e : ε) (f : α → List ω) : next (.error e) f = [] := rfl

@[simp]
theorem next_nil (r : Except ε α) : (next r fun _ => ([] : List ω)) = [] := by
  cases r <;> rfl

section Chain

variable (before after : ω → ρ) (valid : ω → Prop)

/-- Valid uses, each of the resource as the one in front of it leaves it. -/
inductive Chain : ρ → List ω → ρ → Prop where
  | nil (a : ρ) : Chain a [] a
  | cons {us : List ω} {b : ρ} (u : ω) (hvalid : valid u) (hrest : Chain (after u) us b) :
      Chain (before u) (u :: us) b

/-- The uses of a computation, from the resource `a` to what the result has for it. -/
def Traced (of : α → ρ) (a : ρ) (us : List ω) (r : Except ε α) : Prop :=
  ∃ b, Chain before after valid a us b ∧ ∀ x, r = .ok x → of x = b

variable {before after valid} {a b c : ρ} {us vs : List ω} {of : α → ρ} {of' : β → ρ}

theorem Chain.append (h : Chain before after valid a us b) (h' : Chain before after valid b vs c) :
    Chain before after valid a (us ++ vs) c := by
  induction h with
  | nil a => exact h'
  | cons u hvalid _ ih => exact Chain.cons u hvalid (ih h')

/-- **The invariant rule.** -/
theorem Chain.forall (inv : ρ → Prop) (hkeep : ∀ u, inv (before u) → inv (after u))
    (h : Chain before after valid a us b) (ha : inv a) : ∀ u ∈ us, inv (before u) := by
  induction h with
  | nil a => simp
  | cons u _ _ ih => exact List.forall_mem_cons.mpr ⟨ha, ih (hkeep u ha)⟩

/-! ### Computations -/

theorem Traced.of_chain {x : α} (h : Chain before after valid a us (of x)) :
    Traced before after valid of a us (.ok x : Except ε α) := by
  refine ⟨of x, h, fun y hy => ?_⟩
  rw [Except.ok.inj hy]

theorem Traced.ok {x : α} (h : of x = a) :
    Traced before after valid of a [] (.ok x : Except ε α) :=
  Traced.of_chain (h ▸ Chain.nil _)

theorem Traced.error (e : ε) : Traced before after valid of a [] (.error e) :=
  ⟨a, Chain.nil a, fun _ h => nomatch h⟩

theorem Traced.guard {r : Except ε α} {f : α → Except ε β} {vs : α → List ω}
    (hf : ∀ x, r = .ok x → Traced before after valid of' a (vs x) (f x)) :
    Traced before after valid of' a (next r vs) (r >>= f) := by
  cases r with
  | error e => exact Traced.error e
  | ok x => exact hf x rfl

theorem Traced.bind {r : Except ε α} {f : α → Except ε β} {vs : α → List ω}
    (h : Traced before after valid of a us r)
    (hf : ∀ x, r = .ok x → Traced before after valid of' (of x) (vs x) (f x)) :
    Traced before after valid of' a (us ++ next r vs) (r >>= f) := by
  obtain ⟨b, hchain, hok⟩ := h
  cases r with
  | error e =>
      rw [next_error, List.append_nil]
      exact ⟨b, hchain, fun _ h => nomatch h⟩
  | ok x =>
      obtain ⟨c, hrest, hok'⟩ := hf x rfl
      rw [hok x rfl] at hrest
      exact ⟨c, hchain.append hrest, hok'⟩

/-- A computation whose result is only put into another form. -/
theorem Traced.map {r : Except ε α} (g : α → β) (h : Traced before after valid of a us r)
    (hof : ∀ x, of' (g x) = of x) :
    Traced before after valid of' a us (r >>= fun x => .ok (g x)) := by
  have hbind := @Traced.bind _ _ _ _ _ before after valid _ _ of of' r _ (fun _ => []) h
    fun x _ => Traced.ok (hof x)
  rwa [next_nil, List.append_nil] at hbind

end Chain

end Vulcanos.Trace
