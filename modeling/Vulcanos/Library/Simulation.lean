import Vulcanos.Library.Run

/-!
# Simulation of labelled runs

A labelled transition system is a relation between the states before and after a step, one for each
label. A run is simulated by a run of another system under the same labels when one step is, from
states that are related to states that are related. A system of guarded calls is one of these: each
step has the label that the call shows.
-/

namespace Vulcanos.Simulation

variable {σ τ κ ε ℓ : Type}

/-- The runs of a system, with the labels of their steps, the latest one first. -/
inductive Steps (tr : ℓ → σ → σ → Prop) (s : σ) : List ℓ → σ → Prop where
  | refl : Steps tr s [] s
  | step {ls : List ℓ} {l : ℓ} {t u : σ} : Steps tr s ls t → tr l t u → Steps tr s (l :: ls) u

section Steps

variable {tr : ℓ → σ → σ → Prop} {spec : ℓ → τ → τ → Prop} {s t : σ} {ls : List ℓ}

/-- The invariant rule, with what has happened so far. -/
theorem Steps.invariant (inv : List ℓ → σ → Prop) (hrun : Steps tr s ls t) (hinit : inv [] s)
    (hstep : ∀ ls l t u, inv ls t → tr l t u → inv (l :: ls) u) : inv ls t := by
  induction hrun with
  | refl => exact hinit
  | step _ htr ih => exact hstep _ _ _ _ ih htr

/-- **The simulation rule**, where the states of the first system say which state of the second they
stand for, as long as they have an invariant. -/
theorem Steps.simulate_of_abstraction (abs : σ → τ) (inv : σ → Prop)
    (hkeep : ∀ l t u, inv t → tr l t u → inv u)
    (hstep : ∀ l t u, inv t → tr l t u → spec l (abs t) (abs u)) (hrun : Steps tr s ls t)
    (hinit : inv s) : inv t ∧ Steps spec (abs s) ls (abs t) := by
  induction hrun with
  | refl => exact ⟨hinit, Steps.refl⟩
  | step _ htr ih => exact ⟨hkeep _ _ _ ih.1 htr, Steps.step ih.2 (hstep _ _ _ ih.1 htr)⟩

end Steps

/-! ### Guarded calls as a labelled system -/

section Calls

variable (step : κ → σ → Except ε σ) (guard : κ → σ → Prop) (label : κ → σ → σ → ℓ)

/-- A step is a call that meets the guard and returns. -/
def Shown (l : ℓ) (s s' : σ) : Prop := ∃ c, guard c s ∧ step c s = .ok s' ∧ label c s s' = l

variable {step guard label} {s t : σ} {ls : List ℓ}

theorem Steps.mono {guard' : κ → σ → Prop} (hrun : Steps (Shown step guard label) s ls t)
    (hguard : ∀ c t, guard c t → guard' c t) : Steps (Shown step guard' label) s ls t := by
  induction hrun with
  | refl => exact Steps.refl
  | step _ htr ih =>
      obtain ⟨c, hc, hok, hlabel⟩ := htr
      exact Steps.step ih ⟨c, hguard c _ hc, hok, hlabel⟩

/-- Where each call is answered by a function of what it requests, another call shows this. -/
theorem Steps.answered {ρ α : Type} {step : κ → σ → Except ε σ} {label : κ → σ → σ → ρ × α}
    {request : κ → ρ} {answer : ρ → α} {s t : σ} {ls : List (ρ × α)}
    (hserves : ∀ ls t, Steps (Shown step guard label) s ls t →
      (∀ l ∈ ls, l.2 = answer l.1) ∧ ∀ c, guard c t → ∃ u, step c t = .ok u)
    (hlabel : ∀ c t u, (label c t u).1 = request c) (c : κ)
    (hrun : Steps (Shown step guard label) s ls t) (hguard : guard c t) :
    ∃ u, step c t = .ok u ∧
      Steps (Shown step guard label) s ((request c, answer (request c)) :: ls) u := by
  obtain ⟨u, hok⟩ := (hserves ls t hrun).2 c hguard
  have hrun' := Steps.step hrun ⟨c, hguard, hok, rfl⟩
  have hanswer := (hserves _ u hrun').1 _ List.mem_cons_self
  have hshown : label c t u = (request c, answer (request c)) :=
    Prod.ext (hlabel c t u) (hanswer.trans (congrArg answer (hlabel c t u)))
  rw [hshown] at hrun'
  exact ⟨u, hok, hrun'⟩

/-! ### Labelled runs that are computed -/

variable (step guard label) [∀ c s, Decidable (guard c s)]

/-- The calls one after the other, with the labels in front of those there are. -/
def shownAll : List κ → List ℓ → σ → Option (List ℓ × σ)
  | [], ls, s => some (ls, s)
  | c :: cs, ls, s =>
      if guard c s then
        (step c s).toOption.bind fun t => shownAll cs (label c s t :: ls) t
      else none

variable {step guard label}

theorem steps_shownAll {cs : List κ} {ls ls' : List ℓ} {r s t : σ}
    (hrun : Steps (Shown step guard label) r ls s)
    (h : shownAll step guard label cs ls s = some (ls', t)) :
    Steps (Shown step guard label) r ls' t := by
  induction cs generalizing ls s with
  | nil =>
      obtain ⟨rfl, rfl⟩ := Prod.mk.inj (Option.some.inj h)
      exact hrun
  | cons c cs ih =>
      rw [shownAll] at h
      split at h
      · rename_i hguard
        obtain ⟨u, hu, hrest⟩ := Option.bind_eq_some_iff.mp h
        exact ih (Steps.step hrun ⟨c, hguard, Run.toOption_eq_some.mp hu, rfl⟩) hrest
      · simp at h

/-- A labelled run with a property, at the end of a sequence of calls. -/
theorem exists_steps_of_shownAll {cs : List κ} {s : σ} {P : List ℓ × σ → Bool}
    (h : (shownAll step guard label cs [] s).any P = true) :
    ∃ ls t, Steps (Shown step guard label) s ls t ∧ P (ls, t) = true := by
  cases hrun : shownAll step guard label cs [] s with
  | none => simp [hrun] at h
  | some lt => exact ⟨lt.1, lt.2, steps_shownAll Steps.refl hrun, by simpa [hrun] using h⟩

end Calls

/-! ### Sequences of calls that may fail -/

section Outcomes

/-- Both calls return, in related states, or both stop for the same reason. -/
inductive Matches (related : σ → τ → Prop) : Except ε σ → Except ε τ → Prop where
  | returns {s : σ} {t : τ} : related s t → Matches related (.ok s) (.ok t)
  | stops (e : ε) : Matches related (.error e) (.error e)

/-- Each call meets the guard in the state that it is made in. -/
def Within (step : κ → σ → Except ε σ) (guard : κ → σ → Prop) : List κ → σ → Prop
  | [], _ => True
  | c :: cs, s => guard c s ∧ ∀ s', step c s = .ok s' → Within step guard cs s'

theorem Within.cons {step : κ → σ → Except ε σ} {guard : κ → σ → Prop} {c : κ} {cs : List κ}
    {s s' : σ} (hguard : guard c s) (hok : step c s = .ok s') (hrest : Within step guard cs s') :
    Within step guard (c :: cs) s := by
  refine ⟨hguard, fun t ht => ?_⟩
  obtain rfl := Except.ok.inj (hok.symm.trans ht)
  exact hrest

variable {step : κ → σ → Except ε σ} {spec : κ → τ → Except ε τ} {related : σ → τ → Prop}
  {guard : κ → τ → Prop}

/-- **The rule for sequences**: when one call matches, a sequence of calls does. -/
theorem matches_foldlM (hstep : ∀ c s t, related s t → guard c t →
      Matches related (step c s) (spec c t)) {cs : List κ} {s : σ} {t : τ} (hrel : related s t)
    (hwithin : Within spec guard cs t) :
    Matches related (cs.foldlM (fun s c => step c s) s) (cs.foldlM (fun t c => spec c t) t) := by
  induction cs generalizing s t with
  | nil => exact .returns hrel
  | cons c cs ih =>
      obtain ⟨hguard, hrest⟩ := hwithin
      have hfirst := hstep c s t hrel hguard
      rw [List.foldlM_cons, List.foldlM_cons]
      cases hs : step c s with
      | error e =>
          cases ht : spec c t with
          | error e' =>
              rw [hs, ht] at hfirst
              cases hfirst
              exact .stops e
          | ok t' =>
              rw [hs, ht] at hfirst
              cases hfirst
      | ok s' =>
          cases ht : spec c t with
          | error e =>
              rw [hs, ht] at hfirst
              cases hfirst
          | ok t' =>
              rw [hs, ht] at hfirst
              cases hfirst with
              | returns hrel' => exact ih hrel' (hrest t' ht)

end Outcomes

end Vulcanos.Simulation
