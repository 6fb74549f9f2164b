import Mathlib.Data.List.Basic

/-!
# Guarded runs

A system whose steps can fail, driven by a sequence of calls, each of which has to meet a condition
in the state it is made in. A property that the initial state has and every such step keeps holds in
every state a run passes through.
-/

namespace Vulcanos.Run

variable {σ κ ε : Type} (step : κ → σ → Except ε σ) (guard : κ → σ → Prop)

/-- The states that calls meeting the guard lead to, one step at a time. -/
inductive Reaches (s : σ) : σ → Prop where
  | refl : Reaches s s
  | step {t u : σ} (c : κ) : Reaches s t → guard c t → step c t = .ok u → Reaches s u

variable {step guard}

/-- **The invariant rule.** -/
theorem Reaches.invariant (inv : σ → Prop) {s t : σ} (hrun : Reaches step guard s t) (hinit : inv s)
    (hstep : ∀ c t u, inv t → guard c t → step c t = .ok u → inv u) : inv t := by
  induction hrun with
  | refl => exact hinit
  | step c _ hguard hok ih => exact hstep c _ _ ih hguard hok

/-- A run under one guard is a run under every guard that asks for less. -/
theorem Reaches.mono {guard' : κ → σ → Prop} {s t : σ} (hrun : Reaches step guard s t)
    (hguard : ∀ c t, guard c t → guard' c t) : Reaches step guard' s t := by
  induction hrun with
  | refl => exact Reaches.refl
  | step c _ hc hok ih => exact Reaches.step c ih (hguard c _ hc) hok

/-! ### Calls that always return -/

section Along

variable (next : κ → σ → σ)

/-- Each call of the sequence meets `P` in the state it is made in. -/
def Along (P : κ → σ → Prop) : List κ → σ → Prop
  | [], _ => True
  | c :: cs, s => P c s ∧ Along P cs (next c s)

instance Along.decidable (P : κ → σ → Prop) [∀ c s, Decidable (P c s)] :
    ∀ (cs : List κ) (s : σ), Decidable (Along next P cs s)
  | [], _ => .isTrue trivial
  | c :: cs, s => @instDecidableAnd _ _ _ (Along.decidable P cs (next c s))

/-- The state behind a sequence of calls. -/
def after (cs : List κ) (s : σ) : σ := cs.foldl (fun s c => next c s) s

variable {next} {P Q R : κ → σ → Prop}

theorem along_true (cs : List κ) (s : σ) : Along next (fun _ _ => True) cs s := by
  induction cs generalizing s with
  | nil => trivial
  | cons c cs ih => exact ⟨trivial, ih (next c s)⟩

theorem after_append (cs ds : List κ) (s : σ) :
    after next (cs ++ ds) s = after next ds (after next cs s) := List.foldl_append

theorem along_append {cs ds : List κ} {s : σ} :
    Along next P (cs ++ ds) s ↔ Along next P cs s ∧ Along next P ds (after next cs s) := by
  induction cs generalizing s with
  | nil => exact ⟨fun h => ⟨trivial, h⟩, fun h => h.2⟩
  | cons c cs ih =>
      simp only [List.cons_append, Along, after, List.foldl_cons, and_assoc]
      exact and_congr_right fun _ => ih

/-- **The equivalence rule.** Along calls that meet `R`, under an invariant that those of them that
meet `P` keep, a condition that is the same as `P` in every state with the invariant is met along
the same sequences. -/
theorem along_iff (inv : σ → Prop) (hiff : ∀ c s, inv s → R c s → (P c s ↔ Q c s))
    (hkeep : ∀ c s, inv s → R c s → P c s → inv (next c s)) {cs : List κ} {s : σ} (hs : inv s)
    (hR : Along next R cs s) : Along next P cs s ↔ Along next Q cs s := by
  induction cs generalizing s with
  | nil => exact Iff.rfl
  | cons c cs ih =>
      obtain ⟨hRc, hRcs⟩ := hR
      have hhead := hiff c s hs hRc
      constructor
      · rintro ⟨hP, hrest⟩
        exact ⟨hhead.mp hP, (ih (hkeep c s hs hRc hP) hRcs).mp hrest⟩
      · rintro ⟨hQ, hrest⟩
        have hP := hhead.mpr hQ
        exact ⟨hP, (ih (hkeep c s hs hRc hP) hRcs).mpr hrest⟩

theorem along_invariant (inv : σ → Prop) (hkeep : ∀ c s, inv s → P c s → inv (next c s))
    {cs : List κ} {s : σ} (hs : inv s) (halong : Along next P cs s) : inv (after next cs s) := by
  induction cs generalizing s with
  | nil => exact hs
  | cons c cs ih => exact ih (hkeep c s hs halong.1) halong.2

end Along

/-! ### Runs that are computed -/

theorem toOption_eq_some {α : Type} {x : Except ε α} {a : α} : x.toOption = some a ↔ x = .ok a := by
  cases x <;> simp [Except.toOption]

/-- What is asked of the result of a computation is checked on the result. -/
instance decidableForallOk {α : Type} (x : Except ε α) (P : α → Prop) [∀ a, Decidable (P a)] :
    Decidable (∀ a, x = .ok a → P a) :=
  match x with
  | .ok a => decidable_of_iff (P a) ⟨fun h _ hb => Except.ok.inj hb ▸ h, fun h => h a rfl⟩
  | .error _ => .isTrue fun _ h => by simp at h

instance decidableForallSome {α : Type} (x : Option α) (P : α → Prop) [∀ a, Decidable (P a)] :
    Decidable (∀ a, x = some a → P a) :=
  match x with
  | some a => decidable_of_iff (P a) ⟨fun h _ hb => Option.some.inj hb ▸ h, fun h => h a rfl⟩
  | none => .isTrue fun _ h => by simp at h

instance decidableExistsSome {α : Type} (x : Option α) (P : α → Prop) [∀ a, Decidable (P a)] :
    Decidable (∃ a, x = some a ∧ P a) :=
  match x with
  | some a => decidable_of_iff (P a) ⟨fun h => ⟨a, rfl, h⟩, fun ⟨_, hb, h⟩ =>
      Option.some.inj hb ▸ h⟩
  | none => .isFalse fun ⟨_, h, _⟩ => by simp at h

section RunAll

variable (step guard) [∀ c s, Decidable (guard c s)]

/-- A sequence of calls, as long as each meets the guard and returns. -/
def runAll : List κ → σ → Option σ
  | [], s => some s
  | c :: cs, s => if guard c s then (step c s).toOption.bind (runAll cs) else none

variable {step guard}

theorem reaches_runAll {cs : List κ} {s t : σ} (h : runAll step guard cs s = some t) :
    Reaches step guard s t := by
  suffices hgen : ∀ (r : σ), Reaches step guard r s → Reaches step guard r t from
    hgen s Reaches.refl
  intro r hrun
  induction cs generalizing s with
  | nil =>
      obtain rfl := Option.some.inj h
      exact hrun
  | cons c cs ih =>
      rw [runAll] at h
      split at h
      · rename_i hguard
        obtain ⟨u, hu, hrest⟩ := Option.bind_eq_some_iff.mp h
        exact ih hrest (Reaches.step c hrun hguard (toOption_eq_some.mp hu))
      · simp at h

/-- A state with a property, at the end of a sequence of calls. -/
theorem exists_reaches_of_runAll {cs : List κ} {s : σ} {P : σ → Bool}
    (h : (runAll step guard cs s).any P = true) : ∃ t, Reaches step guard s t ∧ P t = true := by
  cases hrun : runAll step guard cs s with
  | none => simp [hrun] at h
  | some t => exact ⟨t, reaches_runAll hrun, by simpa [hrun] using h⟩

end RunAll

end Vulcanos.Run
