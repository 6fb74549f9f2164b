import Mathlib.Data.Finset.Card
import Mathlib.Order.Interval.Finset.Nat
import Vulcanos.Library.Run
import Vulcanos.Proof.Frames

/-!
# Frames under any calls of `alloc_frame` and `free_frame`

The bitmap and a collection of page entries, over calls in any order. The bitmap says of every frame
but 0 whether some page has it, and no two pages have the same, as long as `free_frame` is only
called on entries that have no frame. On an entry that has one it clears the bit of another frame.
-/

namespace Vulcanos

/-- The bitmap and the page entries. -/
structure FramePool (ι : Type) where
  pages : ι → Page
  frames : Frames

/-- A call on one of the entries. -/
inductive FrameCall (ι : Type) where
  | allocFrame (page : ι) (isSuper isWrite : Nat)
  | freeFrame (page : ι)

variable {ι : Type} [DecidableEq ι]

def FrameCall.step : FrameCall ι → FramePool ι → Except Stop (FramePool ι)
  | allocFrame p isSuper isWrite, s => do
      let (page, frames) ← Frames.allocFrame (s.pages p) isSuper isWrite s.frames
      .ok ⟨Function.update s.pages p page, frames⟩
  | freeFrame p, s =>
      let (page, frames) := Frames.freeFrame (s.pages p) s.frames
      .ok ⟨Function.update s.pages p page, frames⟩

namespace FramePool

/-- Zeroed entries and a zeroed bitmap of as many frames as `init_paging` sets up. -/
def empty (ι : Type) : FramePool ι :=
  ⟨fun _ => Page.zero, ⟨fun _ => 0, Frames.physicalMemSize / Frames.frameSize⟩⟩

/-- Bit `f` of the bitmap is set if and only if exactly one entry has frame `f`, for every frame but
0. -/
def Agrees (s : FramePool ι) : Prop :=
  ∀ f ≠ 0, s.frames.used f = true ↔ ∃! p, (s.pages p).fr = f

/-- At most `nframes - 1` frames are held besides frame 0. -/
def Within (s : FramePool ι) : Prop :=
  ∀ held : Finset ι, (∀ p ∈ held, (s.pages p).fr ≠ 0) → held.card ≤ s.frames.nframes - 1

end FramePool

/-- The call does not leave more frames held than there are. -/
def FrameCall.Fits (c : FrameCall ι) (s : FramePool ι) : Prop := ∀ t, c.step s = .ok t → t.Within

/-- The call is not a `free_frame` of an entry that has a frame. -/
def FrameCall.FreesNothing : FrameCall ι → FramePool ι → Prop
  | allocFrame _ _ _, _ => True
  | freeFrame p, s => (s.pages p).fr = 0

instance (c : FrameCall ι) (s : FramePool ι) : Decidable (c.FreesNothing s) := by
  cases c <;> unfold FrameCall.FreesNothing <;> infer_instance

/-! ### The invariant -/

/-- Used frames are below `nframes`, every frame that an entry has is used, no other entry has it,
and a used frame other than 0 is some entry's. -/
structure PoolInv (s : FramePool ι) : Prop where
  nframes : s.frames.nframes = 65536
  bound : ∀ f, s.frames.used f = true → f < 65536
  used : ∀ p, (s.pages p).fr ≠ 0 → s.frames.used (s.pages p).fr = true
  unique : ∀ p q, (s.pages p).fr ≠ 0 → (s.pages q).fr = (s.pages p).fr → q = p
  held : ∀ f ≠ 0, s.frames.used f = true → ∃ p, (s.pages p).fr = f

section Pool

variable {s t : FramePool ι} {p : ι} {isSuper isWrite : Nat}

omit [DecidableEq ι] in
theorem PoolInv.empty : PoolInv (FramePool.empty ι) where
  nframes := rfl
  bound := fun f h => by simp [FramePool.empty, Frames.used, Bitmap.test] at h
  used := fun p h => absurd rfl h
  unique := fun p q h => absurd rfl h
  held := fun f _ h => by simp [FramePool.empty, Frames.used, Bitmap.test] at h

omit [DecidableEq ι] in
theorem PoolInv.agrees (h : PoolInv s) : s.Agrees := by
  intro f hf
  constructor
  · intro hused
    obtain ⟨p, hp⟩ := h.held f hf hused
    refine ⟨p, hp, fun q hq => h.unique p q ?_ ?_⟩
    · rwa [hp]
    · rw [hp]
      exact hq
  · rintro ⟨p, hp, -⟩
    have hused := h.used p (by rwa [hp])
    rwa [hp] at hused

/-- With every frame used, there are as many entries with frames as frames other than 0. -/
theorem PoolInv.exists_all (h : PoolInv s) (hfull : ∀ f < 65536, s.frames.used f = true) :
    ∃ held : Finset ι, held.card = 65535 ∧ ∀ p ∈ held, (s.pages p).fr ≠ 0 := by
  have hpages : ∀ f ∈ Finset.Ico 1 65536, ∃ p, (s.pages p).fr = f := by
    intro f hf
    obtain ⟨hge, hlt⟩ := Finset.mem_Ico.mp hf
    exact h.held f (by omega) (hfull f hlt)
  have hone : Nonempty ι := (hpages 1 (by simp)).nonempty
  choose! page hpage using hpages
  refine ⟨(Finset.Ico 1 65536).image page, ?_, ?_⟩
  · rw [Finset.card_image_of_injOn, Nat.card_Ico]
    intro f hf g hg heq
    rw [← hpage f hf, ← hpage g hg, heq]
  · intro p hp
    obtain ⟨f, hf, rfl⟩ := Finset.mem_image.mp hp
    rw [hpage f hf]
    have hge := (Finset.mem_Ico.mp hf).1
    omega

theorem PoolInv.alloc {page : Page} {f : Nat} (h : PoolInv s) (hbare : (s.pages p).fr = 0)
    (hfree : s.frames.used f = false) (hlt : f < 65536) (hfr : page.fr = f) :
    PoolInv ⟨Function.update s.pages p page, s.frames.setFrame (f * Frames.frameSize)⟩ := by
  have hused : ∀ g, (s.frames.setFrame (f * Frames.frameSize)).used g =
      (decide (g = f) || s.frames.used g) := fun g => by
    rw [Frames.used_setFrame, Frames.frame_mul]
  -- the frames of the other pages are used, so they are not the new one
  have hother : ∀ q, (s.pages q).fr ≠ 0 → (s.pages q).fr ≠ f := by
    intro q hq heq
    have hq' := h.used q hq
    rw [heq, hfree] at hq'
    simp at hq'
  refine ⟨h.nframes, fun g hg => ?_, fun q hq => ?_, fun q r hq hr => ?_, fun g hg hgused => ?_⟩
  · rw [hused, Bool.or_eq_true, decide_eq_true_eq] at hg
    rcases hg with rfl | hg
    · exact hlt
    · exact h.bound g hg
  · rw [hused, Bool.or_eq_true, decide_eq_true_eq]
    by_cases hqp : q = p
    · subst hqp
      exact Or.inl (by simpa using hfr)
    · simp only [Function.update_of_ne hqp] at hq ⊢
      exact Or.inr (h.used q hq)
  · by_cases hqp : q = p
    · subst hqp
      by_contra hrq
      simp only [Function.update_self, Function.update_of_ne hrq] at hq hr
      exact hother r (by rw [hr]; exact hq) (hr.trans hfr)
    · by_cases hrp : r = p
      · subst hrp
        simp only [Function.update_self, Function.update_of_ne hqp] at hq hr
        exact absurd (hr.symm.trans hfr) (hother q hq)
      · simp only [Function.update_of_ne hqp, Function.update_of_ne hrp] at hq hr
        exact h.unique q r hq hr
  · rw [hused, Bool.or_eq_true, decide_eq_true_eq] at hgused
    rcases hgused with rfl | hgused
    · exact ⟨p, by simpa using hfr⟩
    · obtain ⟨q, hq⟩ := h.held g hg hgused
      have hqp : q ≠ p := by
        rintro rfl
        exact hg (hq.symm.trans hbare)
      exact ⟨q, by simpa [Function.update_of_ne hqp] using hq⟩

omit [DecidableEq ι] in
theorem PoolInv.firstFrame (h : PoolInv s) :
    (s.frames.firstFrame < 65536 ∧ s.frames.used s.frames.firstFrame = false) ∨
      (s.frames.firstFrame = 65536 ∧ ∀ f < 65536, s.frames.used f = true) := by
  have hfirst := Frames.firstFrame_spec s.frames
  rw [h.nframes] at hfirst
  rcases Nat.lt_or_ge s.frames.firstFrame 65536 with hlt | hge
  · exact Or.inl ⟨hlt, hfirst.clear hlt⟩
  · have heq : s.frames.firstFrame = 65536 := Nat.le_antisymm hfirst.le hge
    refine Or.inr ⟨heq, fun f hf => hfirst.below f ?_⟩
    rwa [heq]

/-- **One call** keeps the invariant when it frees nothing. -/
theorem PoolInv.step {c : FrameCall ι} (h : PoolInv s) (hfits : c.Fits s)
    (hfrees : c.FreesNothing s)
    (hstep : c.step s = .ok t) : PoolInv t := by
  have hwithin := hfits t hstep
  cases c with
  | allocFrame p isSuper isWrite =>
      simp only [FrameCall.step] at hstep
      by_cases hbare : (s.pages p).fr = 0
      · have hfirst : s.frames.firstFrame < 2 ^ 20 := by
          rcases h.firstFrame with ⟨hlt, -⟩ | ⟨heq, -⟩ <;> omega
        rw [Frames.allocFrame_of_fr_eq_zero isSuper isWrite hbare hfirst] at hstep
        simp only [ok_bind, Except.ok.injEq] at hstep
        subst hstep
        rcases h.firstFrame with ⟨hlt, hfree⟩ | ⟨heq, hfull⟩
        · exact h.alloc hbare hfree hlt rfl
        · -- all frames are held, and this page would get one more
          obtain ⟨held, hcard, hheld⟩ := h.exists_all hfull
          have hp : p ∉ held := fun hp => hheld p hp hbare
          have hmore := hwithin (insert p held) (by
            intro q hq
            by_cases hqp : q = p
            · subst hqp
              simp [Frames.framed, heq]
            · simpa [Function.update_of_ne hqp] using hheld q
                  (Finset.mem_of_mem_insert_of_ne hq hqp))
          rw [Finset.card_insert_of_notMem hp, hcard, Frames.nframes_setFrame, h.nframes] at hmore
          omega
      · rw [Frames.allocFrame_of_fr_ne_zero isSuper isWrite hbare] at hstep
        simp only [ok_bind, Function.update_eq_self, Except.ok.injEq] at hstep
        subst hstep
        exact h
  | freeFrame p =>
      simp only [FrameCall.step] at hstep
      rw [Frames.freeFrame_of_fr_eq_zero hfrees] at hstep
      simp only [Function.update_eq_self, Except.ok.injEq] at hstep
      subst hstep
      exact h

/-- `free_frame` of a page that has a frame: the bit stays set, and nobody has the frame. -/
theorem PoolInv.not_agrees_free (h : PoolInv s) (hheld : (s.pages p).fr ≠ 0)
    (hstep : (FrameCall.freeFrame p).step s = .ok t) : ¬ t.Agrees := by
  simp only [FrameCall.step] at hstep
  rw [Frames.freeFrame_of_fr_ne_zero hheld] at hstep
  simp only [Except.ok.injEq] at hstep
  subst hstep
  intro hagrees
  -- the number of the frame, taken for an address, is that of a lower frame
  have hused : ((s.frames.clearFrame (s.pages p).fr).used (s.pages p).fr) = true := by
    rw [Frames.used_clearFrame, Bool.and_eq_true, decide_eq_true_eq]
    refine ⟨fun heq => ?_, h.used p hheld⟩
    unfold Frames.frame Frames.frameSize at heq
    omega
  obtain ⟨q, hq, -⟩ := (hagrees _ hheld).mp hused
  by_cases hqp : q = p
  · subst hqp
    simp only [Function.update_self] at hq
    exact hheld hq.symm
  · simp only [Function.update_of_ne hqp] at hq
    exact hqp (h.unique p q hheld hq)

/-- **In every run that frees nothing** the bitmap and the entries agree; and from any state of such
a run, a call of `free_frame` keeps it so exactly when the entry has no frame. -/
theorem agrees_of_run (hrun : Run.Reaches FrameCall.step (fun c s => c.Fits s ∧ c.FreesNothing s)
    (FramePool.empty ι) s) :
    s.Agrees ∧ ∀ p t, (FrameCall.freeFrame p).step s = .ok t →
      (t.Agrees ↔ (s.pages p).fr = 0) := by
  have hinv : PoolInv s := hrun.invariant PoolInv PoolInv.empty
    fun _ _ _ h hguard hstep => h.step hguard.1 hguard.2 hstep
  refine ⟨hinv.agrees, fun p t hstep => ⟨fun hagrees => ?_, fun hbare => ?_⟩⟩
  · by_contra hheld
    exact hinv.not_agrees_free hheld hstep hagrees
  · simp only [FrameCall.step] at hstep
    rw [Frames.freeFrame_of_fr_eq_zero hbare] at hstep
    simp only [Function.update_eq_self, Except.ok.injEq] at hstep
    subst hstep
    exact hinv.agrees

/-- A collection of fewer entries than frames never holds too many. -/
theorem FrameCall.fits_of_card [Fintype ι] {s : FramePool ι} (c : FrameCall ι)
    (hcard : Fintype.card ι ≤ s.frames.nframes - 1) : c.Fits s := by
  intro t hstep held _
  have hle := held.card_le_univ
  have hnframes : t.frames.nframes = s.frames.nframes := by
    cases c with
    | allocFrame p isSuper isWrite =>
        simp only [FrameCall.step, bind_eq_ok, Except.ok.injEq] at hstep
        obtain ⟨⟨page, frames⟩, halloc, rfl⟩ := hstep
        exact Frames.nframes_of_allocFrame halloc
    | freeFrame p =>
        simp only [FrameCall.step, Except.ok.injEq] at hstep
        subst hstep
        exact Frames.nframes_freeFrame _ _
  omega

end Pool

/-- Two entries: the first is asked for a frame until it has one, and the second is freed without
having one. -/
def sparingCalls : List (FrameCall Bool) :=
  [.allocFrame true 0 0, .allocFrame true 0 0, .freeFrame false, .allocFrame false 0 1]

theorem agrees_of_run_sparingCalls : ∃ s : FramePool Bool,
    Run.Reaches FrameCall.step (fun c s => c.Fits s ∧ c.FreesNothing s) (FramePool.empty Bool) s ∧
      (s.pages true).fr = 1 ∧ (s.pages false).fr = 2 ∧ s.Agrees := by
  obtain ⟨t, hrun, hframes⟩ := Run.exists_reaches_of_runAll
    (show (Run.runAll FrameCall.step
      (fun c s => s.frames.nframes = 65536 ∧ c.FreesNothing s) sparingCalls
      (FramePool.empty Bool)).any
      (fun t => decide ((t.pages true).fr = 1 ∧ (t.pages false).fr = 2)) = true by decide +kernel)
  have hgood := hrun.mono fun c s (hguard : s.frames.nframes = 65536 ∧ c.FreesNothing s) =>
    And.intro (c.fits_of_card (by rw [hguard.1]; decide)) hguard.2
  obtain ⟨htrue, hfalse⟩ := of_decide_eq_true hframes
  exact ⟨t, hgood, htrue, hfalse, (agrees_of_run hgood).1⟩

/-- One entry, given a frame and freed. -/
def leakingCalls : List (FrameCall Unit) :=
  [.allocFrame () 0 0, .allocFrame () 0 0, .freeFrame ()]

theorem not_agrees_of_fits : ¬ ∀ s : FramePool Unit,
    Run.Reaches FrameCall.step FrameCall.Fits (FramePool.empty Unit) s → s.Agrees := by
  intro hall
  obtain ⟨t, hrun, hcheck⟩ := Run.exists_reaches_of_runAll
    (show (Run.runAll FrameCall.step (fun _ s => s.frames.nframes = 65536) leakingCalls
      (FramePool.empty Unit)).any
      (fun t => decide (t.frames.used 1 = true ∧ (t.pages ()).fr = 0)) = true by decide +kernel)
  obtain ⟨hused, hbare⟩ := of_decide_eq_true hcheck
  have hfits := hrun.mono fun c s (hguard : s.frames.nframes = 65536) =>
    c.fits_of_card (by rw [hguard]; decide)
  -- bit 1 is set and the only entry has no frame
  obtain ⟨p, hp, -⟩ := (hall t hfits 1 Nat.one_ne_zero).mp hused
  rw [show p = () from rfl, hbare] at hp
  exact absurd hp (by decide)

end Vulcanos
