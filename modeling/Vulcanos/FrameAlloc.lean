import Mathlib.Data.List.Sort
import Mathlib.Order.Bounds.Basic
import Vulcanos.FramePool

/-!
# Handing out frames

`alloc_frame` as long as there are clear frames, and when there are none. While some are left, pages
get the least of them, one after another. Then `first_frame` returns the number of frames in the
sections it has searched, and `alloc_frame` waits for another value.
-/

namespace Vulcanos

namespace Frames

/-- The frames whose bit is clear, in increasing order. -/
def clearFrames (f : Frames) : List Nat := (List.range f.nframes).filter fun g => !f.used g

/-- What a call of `alloc_frame` on a page without a frame is to end in: the page has a clear frame,
which is used from then on, and nothing behind the last section is written; or it stops, because no
frame is clear. -/
def AllocOk (f : Frames) : Except Stop (Page × Frames) → Prop
  | .ok (page, f') => page.fr < f.nframes ∧ f.used page.fr = false ∧
      (∀ g, f'.used g = (decide (g = page.fr) || f.used g)) ∧
      ∀ sec, f.nframes / sectionSize ≤ sec → f'.frameAllocations sec = f.frameAllocations sec
  | .error stop => stop = .panic "No free frames availables!" ∧ ∀ g < f.nframes, f.used g = true

/-- The sections that `first_frame` searches have a clear frame, and a page entry has room for its
number. -/
def SomeClear (f : Frames) : Prop :=
  ∃ g < f.nframes / sectionSize * sectionSize, g < 2 ^ 20 ∧ f.used g = false

end Frames

def FramePool.allocFrames {ι : Type} [DecidableEq ι] :
    List (ι × Nat × Nat) → FramePool ι → Except Stop (FramePool ι)
  | [], s => .ok s
  | (page, isSuper, isWrite) :: calls, s => do
      let s ← (FrameCall.allocFrame page isSuper isWrite).step s
      allocFrames calls s

namespace Frames

variable {f : Frames} {page : Page} {g n : Nat}

/-! ### The clear frames -/

theorem mem_clearFrames : g ∈ f.clearFrames ↔ g < f.nframes ∧ f.used g = false := by
  simp [clearFrames]

theorem clearFrames_pairwise (f : Frames) : f.clearFrames.Pairwise (· < ·) :=
  List.pairwise_lt_range.filter _

theorem isLeast_firstFrame (hn : f.nframes = sectionSize * n) (hsome : ∃ g < f.nframes, f.used g =
    false) :
    IsLeast {g | g < f.nframes ∧ f.used g = false} f.firstFrame := by
  have hfirst := firstFrame_spec f
  rw [hn, Nat.mul_div_cancel_left n (by decide), Nat.mul_comm, ← hn] at hfirst
  have hlower : ∀ g, f.used g = false → f.firstFrame ≤ g := by
    intro g hclear
    by_contra hlt
    have hused := hfirst.below g (Nat.lt_of_not_le hlt)
    rw [show Bitmap.test sectionSize f.frameAllocations g = f.used g from rfl, hclear] at hused
    simp at hused
  obtain ⟨g, hg, hclear⟩ := hsome
  have hlt : f.firstFrame < f.nframes := Nat.lt_of_le_of_lt (hlower g hclear) hg
  exact ⟨⟨hlt, hfirst.clear hlt⟩, fun g hg => hlower g hg.2⟩

theorem firstFrame_of_full (hn : f.nframes = sectionSize * n)
    (hfull : ∀ g < f.nframes, f.used g = true) : f.firstFrame = f.nframes := by
  have hfirst := firstFrame_spec f
  rw [hn, Nat.mul_div_cancel_left n (by decide), Nat.mul_comm, ← hn] at hfirst
  refine Nat.le_antisymm hfirst.le ?_
  by_contra hlt
  have hclear := hfirst.clear (Nat.lt_of_not_le hlt)
  have hused := hfull _ (Nat.lt_of_not_le hlt)
  rw [show Bitmap.test sectionSize f.frameAllocations f.firstFrame = f.used f.firstFrame from rfl,
    hused] at hclear
  simp at hclear

theorem clearFrames_setFrame (hleast : IsLeast {g | g < f.nframes ∧ f.used g = false} g) :
    f.clearFrames = g :: (f.setFrame (g * frameSize)).clearFrames := by
  have hmem : ∀ x, x ∈ (f.setFrame (g * frameSize)).clearFrames ↔
      x < f.nframes ∧ x ≠ g ∧ f.used x = false := by
    intro x
    rw [mem_clearFrames, nframes_setFrame, used_setFrame, frame_mul, Bool.or_eq_false_iff,
      decide_eq_false_iff_not]
  refine (clearFrames_pairwise f).eq_of_mem_iff
    (List.pairwise_cons.mpr ⟨fun x hx => ?_, clearFrames_pairwise _⟩) fun x => ?_
  · obtain ⟨hlt, hne, hclear⟩ := (hmem x).mp hx
    exact Nat.lt_of_le_of_ne (hleast.2 ⟨hlt, hclear⟩) (Ne.symm hne)
  · rw [List.mem_cons, hmem, mem_clearFrames]
    constructor
    · rintro ⟨hlt, hclear⟩
      by_cases hx : x = g
      · exact Or.inl hx
      · exact Or.inr ⟨hlt, hx, hclear⟩
    · rintro (rfl | ⟨hlt, -, hclear⟩)
      · exact hleast.1
      · exact ⟨hlt, hclear⟩

/-! ### While frames are left -/

theorem allocFrame_least (isSuper isWrite : Nat) (hn : f.nframes = sectionSize * n)
    (hmax : f.nframes ≤ 2 ^ 20) (hbare : page.fr = 0) (hsome : ∃ g < f.nframes, f.used g = false) :
    allocFrame page isSuper isWrite f =
      .ok (framed page isWrite f.firstFrame, f.setFrame (f.firstFrame * frameSize)) := by
  have hlt := (isLeast_firstFrame hn hsome).1.1
  exact allocFrame_of_fr_eq_zero isSuper isWrite hbare (Nat.lt_of_lt_of_le hlt hmax)

end Frames

section Calls

variable {ι : Type} [DecidableEq ι] {s : FramePool ι} {n : Nat} {calls : List (ι × Nat × Nat)}

open Frames

theorem FramePool.allocFrames_spec (hn : s.frames.nframes = sectionSize * n)
    (hmax : s.frames.nframes ≤ 2 ^ 20) (hnodup : (calls.map Prod.fst).Nodup)
    (hbare : ∀ p ∈ calls.map Prod.fst, (s.pages p).fr = 0)
    (henough : calls.length ≤ s.frames.clearFrames.length) :
    ∃ t, s.allocFrames calls = .ok t ∧ t.frames.nframes = s.frames.nframes ∧
      (calls.map Prod.fst).map (fun p => (t.pages p).fr) =
        s.frames.clearFrames.take calls.length ∧
      (∀ g, t.frames.used g =
        (decide (g ∈ s.frames.clearFrames.take calls.length) || s.frames.used g)) ∧
      ∀ p ∉ calls.map Prod.fst, t.pages p = s.pages p := by
  induction calls generalizing s with
  | nil => exact ⟨s, rfl, rfl, by simp, by simp, fun _ _ => rfl⟩
  | cons call calls ih =>
      obtain ⟨page, isSuper, isWrite⟩ := call
      simp only [List.map_cons, List.nodup_cons, List.mem_cons] at hnodup hbare ⊢
      rw [List.length_cons] at henough ⊢
      obtain ⟨hfresh, hnodup⟩ := hnodup
      have hsome : ∃ g < s.frames.nframes, s.frames.used g = false := by
        obtain ⟨g, hg⟩ := List.exists_mem_of_length_pos (l := s.frames.clearFrames) (by omega)
        exact ⟨g, mem_clearFrames.mp hg⟩
      have hleast := isLeast_firstFrame hn hsome
      have hclear := clearFrames_setFrame hleast
      have halloc := allocFrame_least isSuper isWrite hn hmax (hbare page (Or.inl rfl)) hsome
      -- the state behind the first call
      obtain ⟨s1, hs1⟩ : ∃ s1 : FramePool ι, s1 =
          ⟨Function.update s.pages page (framed (s.pages page) isWrite s.frames.firstFrame),
            s.frames.setFrame (s.frames.firstFrame * frameSize)⟩ := ⟨_, rfl⟩
      have hstep : (FrameCall.allocFrame page isSuper isWrite).step s = .ok s1 := by
        simp only [FrameCall.step, halloc, ok_bind, hs1]
      have hother : ∀ p ≠ page, s1.pages p = s.pages p := fun p hp => by
        rw [hs1]
        exact Function.update_of_ne hp _ _
      have hframes : s1.frames = s.frames.setFrame (s.frames.firstFrame * frameSize) := by rw [hs1]
      have hgot : (s1.pages page).fr = s.frames.firstFrame := by
        rw [hs1]
        simp [framed]
      rw [← hframes] at hclear
      have hnframes : s1.frames.nframes = s.frames.nframes := by rw [hframes, nframes_setFrame]
      obtain ⟨t, ht, htn, hpages, hused, hrest⟩ := ih (s := s1) (by rw [hnframes, hn])
        (by rw [hnframes]; exact hmax) hnodup
        (fun p hp => by
          rw [hother p fun heq => hfresh (heq ▸ hp)]
          exact hbare p (Or.inr hp))
        (by rw [hclear, List.length_cons] at henough; omega)
      refine ⟨t, ?_, htn.trans hnframes, ?_, fun g => ?_, fun p hp => ?_⟩
      · rw [allocFrames, hstep, ok_bind, ht]
      · rw [hclear, List.take_succ_cons, hpages, hrest page hfresh, hgot]
      · rw [hclear, List.take_succ_cons, hused, hframes, used_setFrame, frame_mul]
        simp only [List.mem_cons, Bool.decide_or]
        rw [Bool.or_left_comm, Bool.or_assoc]
      · rw [not_or] at hp
        rw [hrest p hp.2, hother p hp.1]

/-- **The least clear frames, in order.** `first_frame` finds the least clear frame, or returns
their number, and pages that are given frames one after another get the smallest. -/
theorem FramePool.allocFrames_least (s : FramePool ι) (n : Nat) (hn : s.frames.nframes = 32 * n)
    (hmax : 32 * n ≤ 2 ^ 20) :
    ((∃ g < s.frames.nframes, s.frames.used g = false) →
        IsLeast {g | g < s.frames.nframes ∧ s.frames.used g = false} s.frames.firstFrame) ∧
      ((∀ g < s.frames.nframes, s.frames.used g = true) →
        s.frames.firstFrame = s.frames.nframes) ∧
      ∀ calls : List (ι × Nat × Nat), (calls.map Prod.fst).Nodup →
        (∀ p ∈ calls.map Prod.fst, (s.pages p).fr = 0) →
        calls.length ≤ s.frames.clearFrames.length →
        ∃ t, s.allocFrames calls = .ok t ∧ t.frames.nframes = s.frames.nframes ∧
          (calls.map Prod.fst).map (fun p => (t.pages p).fr) =
            s.frames.clearFrames.take calls.length ∧
          (∀ g, t.frames.used g =
            (decide (g ∈ s.frames.clearFrames.take calls.length) || s.frames.used g)) ∧
          ∀ p ∉ calls.map Prod.fst, t.pages p = s.pages p :=
  ⟨isLeast_firstFrame hn, firstFrame_of_full hn, fun _ hnodup hbare henough =>
    s.allocFrames_spec hn (by rw [hn]; exact hmax) hnodup hbare henough⟩

end Calls

/-- Two pages and two sections of frames, of which 1, 33 and 35 are clear. -/
def sparsePool : FramePool Bool :=
  ⟨fun _ => Page.zero, ⟨fun sec => if sec = 0 then 0xFFFFFFFD else 0xFFFFFFF5, 64⟩⟩

theorem allocFrames_least_sparsePool :
    ∃ t, sparsePool.allocFrames [(true, 0, 0), (false, 0, 1)] = .ok t ∧
      [true, false].map (fun p => (t.pages p).fr) = [1, 33] := by
  obtain ⟨-, -, hcalls⟩ := sparsePool.allocFrames_least 2 rfl (by decide)
  obtain ⟨t, ht, -, hpages, -⟩ := hcalls [(true, 0, 0), (false, 0, 1)] (by decide) (by decide)
    (by decide)
  exact ⟨t, ht, hpages.trans (by decide)⟩

/-! ### When none are left -/

namespace Frames

variable {f : Frames} {page : Page} {isSuper isWrite : Nat}

/-- With a clear frame in the sections it searches, the call does what it should. -/
theorem SomeClear.allocOk (h : SomeClear f) (hbare : page.fr = 0) :
    AllocOk f (allocFrame page isSuper isWrite f) := by
  obtain ⟨g, hg, hroom, hclear⟩ := h
  have hfirst := firstFrame_spec f
  have hle : f.firstFrame ≤ g := by
    by_contra hlt
    have hused := hfirst.below g (Nat.lt_of_not_le hlt)
    rw [show Bitmap.test sectionSize f.frameAllocations g = f.used g from rfl, hclear] at hused
    simp at hused
  have hlt : f.firstFrame < f.nframes / sectionSize * sectionSize := Nat.lt_of_le_of_lt hle hg
  rw [allocFrame_of_fr_eq_zero isSuper isWrite hbare (Nat.lt_of_le_of_lt hle hroom)]
  refine ⟨Nat.lt_of_lt_of_le hlt (Nat.div_mul_le_self _ _), hfirst.clear hlt, fun x => ?_,
    fun sec hsec => ?_⟩
  · rw [used_setFrame, frame_mul]
    rfl
  · have hne : sec ≠ frameSection (frame (f.firstFrame * frameSize)) := by
      rw [frame_mul]
      have hin := Nat.div_lt_of_lt_mul (Nat.mul_comm _ _ ▸ hlt)
      exact fun heq => Nat.lt_irrefl _ (Nat.lt_of_lt_of_le (heq ▸ hin) hsec)
    exact Function.update_of_ne hne _ _

theorem allocFrame_of_firstFrame_ne (isSuper isWrite : Nat) (hbare : page.fr = 0)
    (hlast : f.firstFrame ≠ 0xFFFFFFFF) :
    allocFrame page isSuper isWrite f = .ok (framed page isWrite (f.firstFrame % 2 ^ 20),
      f.setFrame (f.firstFrame * frameSize % 4294967296)) := by
  unfold allocFrame
  rw [if_neg (not_not.mpr hbare)]
  simp [hlast, framed]

/-- Without a clear frame the call does not do what it should: the page gets the frame behind those
that were searched, or, where a page entry has no room for the number, one that is used. -/
theorem SomeClear.of_allocOk (hn : f.nframes < 4294967296) (hbare : page.fr = 0)
    (hok : AllocOk f (allocFrame page isSuper isWrite f)) : SomeClear f := by
  have hfirst := firstFrame_spec f
  have hle := hfirst.le
  have hlast : f.firstFrame ≠ 0xFFFFFFFF := by
    unfold sectionSize at hle
    omega
  rw [allocFrame_of_firstFrame_ne isSuper isWrite hbare hlast] at hok
  generalize f.setFrame (f.firstFrame * frameSize % 4294967296) = f' at hok
  obtain ⟨-, hclear, hused, hsections⟩ := hok
  simp only [framed] at hclear hused
  by_contra hnone
  have hall : ∀ g < f.nframes / sectionSize * sectionSize, g < 2 ^ 20 → f.used g = true := by
    intro g hg hroom
    by_contra hunused
    exact hnone ⟨g, hg, hroom, by simpa using hunused⟩
  by_cases hsmall : f.firstFrame < 2 ^ 20
  · -- the frame is not among those searched, so its bit lies behind the last section
    rw [Nat.mod_eq_of_lt hsmall] at hclear
    have hend : f.firstFrame = f.nframes / sectionSize * sectionSize := by
      refine Nat.le_antisymm hle (Nat.le_of_not_lt fun hlt => ?_)
      rw [hall _ hlt hsmall] at hclear
      simp at hclear
    have hbit : f'.used f.firstFrame = true := by
      rw [hused, Nat.mod_eq_of_lt hsmall]
      simp
    have hword := hsections (f.nframes / sectionSize) (Nat.le_refl _)
    unfold used Bitmap.test at hbit hclear
    rw [hend, Nat.mul_div_cancel _ (by decide)] at hbit hclear
    rw [hword, hclear] at hbit
    simp at hbit
  · -- what is left of the number is a frame that was passed over
    have hmod : f.firstFrame % 2 ^ 20 < 2 ^ 20 := Nat.mod_lt _ (by decide)
    rw [hall _ (by omega) hmod] at hclear
    simp at hclear

end Frames

section OneAfterAnother

variable {ι : Type} [DecidableEq ι] {s t : FramePool ι} {calls : List (ι × Nat × Nat)}

open Frames

/-- Each call of the sequence finds a clear frame. -/
def FramePool.EachClear : List (ι × Nat × Nat) → FramePool ι → Prop
  | [], _ => True
  | (page, isSuper, isWrite) :: calls, s => s.frames.SomeClear ∧
      ∀ s1, (FrameCall.allocFrame page isSuper isWrite).step s = .ok s1 → EachClear calls s1

theorem FramePool.EachClear.frames_nodup (h : s.EachClear calls)
    (hnodup : (calls.map Prod.fst).Nodup) (hbare : ∀ p ∈ calls.map Prod.fst, (s.pages p).fr = 0)
    (ht : s.allocFrames calls = .ok t) :
    (∀ p ∈ calls.map Prod.fst, s.frames.used (t.pages p).fr = false) ∧
      ((calls.map Prod.fst).map fun p => (t.pages p).fr).Nodup ∧
      ∀ p ∉ calls.map Prod.fst, t.pages p = s.pages p := by
  induction calls generalizing s with
  | nil =>
      rw [allocFrames, Except.ok.injEq] at ht
      subst ht
      simp
  | cons call calls ih =>
      obtain ⟨page, isSuper, isWrite⟩ := call
      simp only [List.map_cons, List.nodup_cons, List.mem_cons] at hnodup hbare ⊢
      obtain ⟨hfresh, hnodup⟩ := hnodup
      obtain ⟨hsome, hrest⟩ := h
      have hok : AllocOk s.frames (allocFrame (s.pages page) isSuper isWrite s.frames) :=
        hsome.allocOk (hbare page (Or.inl rfl))
      rw [allocFrames, bind_eq_ok] at ht
      obtain ⟨s1, hstep, ht⟩ := ht
      have hrest := hrest s1 hstep
      simp only [FrameCall.step, bind_eq_ok, Except.ok.injEq] at hstep
      obtain ⟨⟨page', f'⟩, hcall, rfl⟩ := hstep
      rw [hcall] at hok
      obtain ⟨-, hclear, hused, -⟩ := hok
      have hbare1 : ∀ p ∈ calls.map Prod.fst,
          (Function.update s.pages page page' p).fr = 0 := by
        intro p hp
        have hne : p ≠ page := by
          rintro rfl
          exact hfresh hp
        rw [Function.update_of_ne hne]
        exact hbare p (Or.inr hp)
      obtain ⟨hunused, hdistinct, hother⟩ := ih hrest hnodup hbare1 ht
      have hgot : (t.pages page).fr = page'.fr := by
        rw [hother page hfresh]
        simp
      -- the frame of the first page is used when the others get theirs
      have hapart : ∀ p ∈ calls.map Prod.fst,
          (t.pages p).fr ≠ page'.fr ∧ s.frames.used (t.pages p).fr = false := by
        intro p hp
        have hp' := hunused p hp
        simp only [hused, Bool.or_eq_false_iff, decide_eq_false_iff_not] at hp'
        exact hp'
      refine ⟨?_, ⟨?_, hdistinct⟩, fun p hp => ?_⟩
      · rintro p (rfl | hp)
        · rw [hgot]
          exact hclear
        · exact (hapart p hp).2
      · rw [hgot]
        intro hmem
        obtain ⟨p, hp, heq⟩ := List.mem_map.mp hmem
        exact (hapart p hp).1 heq
      · rw [not_or] at hp
        rw [hother p hp.2]
        exact Function.update_of_ne hp.1 _ _

/-- **A call of `alloc_frame` does what it should** exactly when the sections it searches have a
clear frame; and calls that each find one give every page a frame of its own. -/
theorem FramePool.allocFrame_ok_iff :
    (∀ (f : Frames) (page : Page) (isSuper isWrite : Nat), f.nframes < 4294967296 → page.fr = 0 →
      (AllocOk f (allocFrame page isSuper isWrite f) ↔ SomeClear f)) ∧
    ∀ (s t : FramePool ι) (calls : List (ι × Nat × Nat)), (calls.map Prod.fst).Nodup →
      (∀ p ∈ calls.map Prod.fst, (s.pages p).fr = 0) → s.EachClear calls →
      s.allocFrames calls = .ok t → ((calls.map Prod.fst).map fun p => (t.pages p).fr).Nodup :=
  ⟨fun _ _ _ _ hn hbare => ⟨SomeClear.of_allocOk hn hbare, fun h => h.allocOk hbare⟩,
    fun _ _ _ hnodup hbare heach ht => (heach.frames_nodup hnodup hbare ht).2.1⟩

end OneAfterAnother

open Frames

theorem allocFrame_ok_iff_sparsePool :
    (AllocOk sparsePool.frames (allocFrame Page.zero 0 0 sparsePool.frames) ↔
      SomeClear sparsePool.frames) ∧
    ∃ t, sparsePool.allocFrames [(true, 0, 0), (false, 0, 1)] = .ok t ∧
      ([true, false].map fun p => (t.pages p).fr).Nodup := by
  have hspec := @FramePool.allocFrame_ok_iff Bool _
  have hsome : SomeClear sparsePool.frames := ⟨1, by decide, by decide, by decide⟩
  refine ⟨hspec.1 _ _ 0 0 (by decide) rfl, _, rfl, ?_⟩
  refine hspec.2 sparsePool _ [(true, 0, 0), (false, 0, 1)] (by decide) (by decide)
    ⟨hsome, fun s1 hs1 => ?_⟩ rfl
  obtain rfl := Except.ok.inj hs1
  exact ⟨⟨33, by decide, by decide, by decide⟩, fun _ _ => trivial⟩

/-- A bitmap of one section, with all its frames used. -/
def fullFrames : Frames := ⟨fun _ => 0xFFFFFFFF, 32⟩

/-- With all frames used, a page gets frame 32 of 32. -/
theorem not_allocFrame_ok : ¬ ∀ (f : Frames) (page : Page) (isSuper isWrite : Nat),
    f.nframes < 4294967296 → page.fr = 0 → AllocOk f (allocFrame page isSuper isWrite f) := by
  intro hall
  have hok := hall fullFrames Page.zero 0 0 (by decide) rfl
  have hcall : ∃ f', allocFrame Page.zero 0 0 fullFrames = .ok (⟨1, 0, 0, 32⟩, f') :=
    ⟨_, rfl⟩
  obtain ⟨f', hcall⟩ := hcall
  rw [hcall] at hok
  exact absurd hok.1 (by decide)

/-! ### A second call -/

/-- A call of `alloc_frame` returns, and no call on the same page after it, with whatever flags,
changes the entry or the bitmap. -/
def Frames.Settles (f : Frames) (page : Page) (isSuper isWrite : Nat) : Prop :=
  ∃ page' f', allocFrame page isSuper isWrite f = .ok (page', f') ∧
    ∀ isSuper' isWrite', allocFrame page' isSuper' isWrite' f' = .ok (page', f')

section Again

variable {f f' : Frames} {page : Page} {n g : Nat}

theorem exists_other_flag (isWrite : Nat) :
    ∃ isWrite' : Nat, (if isWrite' ≠ 0 then 1 else 0) ≠ if isWrite ≠ 0 then 1 else 0 := by
  by_cases hzero : isWrite = 0
  · exact ⟨1, by simp [hzero]⟩
  · exact ⟨0, by simp [hzero]⟩

/-- An entry that says frame 0 has no frame to `alloc_frame`: the next call gives it one, and the
access rights that this call is told. -/
theorem not_settled_of_fr_eq_zero (hn : f'.nframes < 4294967296) (isWrite : Nat) :
    ¬ ∀ isSuper' isWrite',
      allocFrame (framed page isWrite 0) isSuper' isWrite' f' =
        .ok (framed page isWrite 0, f') := by
  intro hsettled
  obtain ⟨isWrite', hother⟩ := exists_other_flag isWrite
  have hle := (firstFrame_spec f').le
  have hlast : f'.firstFrame ≠ 0xFFFFFFFF := by
    unfold sectionSize at hle
    omega
  have hagain := hsettled 0 isWrite'
  rw [allocFrame_of_firstFrame_ne 0 isWrite' rfl hlast, Except.ok.injEq, Prod.mk.injEq] at hagain
  exact hother (congrArg Page.rw hagain.1)

/-- **A mapped page keeps its frame** exactly when the least clear frame, which it gets, is not one
that an entry cannot tell from none. -/
theorem Frames.settles_iff (page : Page) (isSuper isWrite : Nat) (hn : f.nframes = sectionSize * n)
    (hlt : f.nframes < 4294967296) (hsome : ∃ g < f.nframes, f.used g = false)
    (hbare : page.fr = 0) :
    f.Settles page isSuper isWrite ↔
      ∃ g, IsLeast {g | g < f.nframes ∧ f.used g = false} g ∧ g % 2 ^ 20 ≠ 0 := by
  have hleast := isLeast_firstFrame hn hsome
  have hlast : f.firstFrame ≠ 0xFFFFFFFF := by
    have hin : f.firstFrame < f.nframes := hleast.1.1
    unfold sectionSize at hn
    omega
  have hcall := allocFrame_of_firstFrame_ne isSuper isWrite hbare hlast
  constructor
  · rintro ⟨page', f', hfirst, hsettled⟩
    refine ⟨f.firstFrame, hleast, fun hzero => ?_⟩
    rw [hcall, hzero, Except.ok.injEq, Prod.mk.injEq] at hfirst
    obtain ⟨rfl, rfl⟩ := hfirst
    refine not_settled_of_fr_eq_zero ?_ isWrite hsettled
    rwa [nframes_setFrame]
  · rintro ⟨g, hg, hne⟩
    rw [hg.unique hleast] at hne
    exact ⟨_, _, hcall, fun isSuper' isWrite' => allocFrame_of_fr_ne_zero isSuper' isWrite' hne⟩

/-- With frame 0 used, the page gets frame 1. -/
theorem settles_iff_sparsePool :
    sparsePool.frames.Settles Page.zero 0 0 ↔
      ∃ g, IsLeast {g | g < sparsePool.frames.nframes ∧ sparsePool.frames.used g = false} g ∧
        g % 2 ^ 20 ≠ 0 :=
  Frames.settles_iff Page.zero 0 0 (show _ = sectionSize * 2 from rfl) (by decide)
    ⟨1, by decide, by decide⟩ rfl

/-- With all frames clear, the page gets frame 0 and then frame 1. -/
theorem not_settles : ¬ ∀ (f : Frames) (page : Page) (isSuper isWrite : Nat),
    (∃ n, f.nframes = sectionSize * n) → f.nframes < 4294967296 →
    (∃ g < f.nframes, ∃ h < f.nframes, g ≠ h ∧ f.used g = false ∧ f.used h = false) →
    page.fr = 0 → f.Settles page isSuper isWrite := by
  intro hall
  obtain ⟨page', f', hfirst, hsettled⟩ := hall ⟨fun _ => 0, 32⟩ Page.zero 0 0 ⟨1, rfl⟩ (by decide)
    ⟨0, by decide, 1, by decide, by decide, by decide, by decide⟩ rfl
  obtain ⟨f1, hcall⟩ : ∃ f1, allocFrame Page.zero 0 0 ⟨fun _ => 0, 32⟩ = .ok (⟨1, 0, 0, 0⟩, f1) ∧
      ∃ f2, allocFrame ⟨1, 0, 0, 0⟩ 0 0 f1 = .ok (⟨1, 0, 0, 1⟩, f2) := ⟨_, rfl, _, rfl⟩
  obtain ⟨hcall, f2, hagain⟩ := hcall
  rw [hcall, Except.ok.injEq, Prod.mk.injEq] at hfirst
  obtain ⟨rfl, rfl⟩ := hfirst
  have hsame := hsettled 0 0
  rw [hagain, Except.ok.injEq, Prod.mk.injEq] at hsame
  exact absurd hsame.1 (by decide)

end Again

end Vulcanos
