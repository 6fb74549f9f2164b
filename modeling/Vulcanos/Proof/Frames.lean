import Vulcanos.Kernel.Frames
import Vulcanos.Library.Bitmap

/-!
# What the frame operations do to the bitmap

`set_frame` and `clear_frame` take an address, `first_frame` gives a frame number. `alloc_frame`
converts the number it got before it sets it; `free_frame` does not convert before it clears.
-/

namespace Vulcanos

namespace Frames

variable {f f' : Frames} {page page' : Page} {g n : Nat}

/-- Whether a frame is marked as used. -/
def used (f : Frames) (g : Nat) : Bool := Bitmap.test sectionSize f.frameAllocations g

@[simp]
theorem nframes_setFrame (addr : Nat) (f : Frames) : (setFrame addr f).nframes = f.nframes := rfl

@[simp]
theorem nframes_clearFrame (addr : Nat) (f : Frames) : (clearFrame addr f).nframes =
    f.nframes := rfl

theorem used_setFrame (addr g : Nat) (f : Frames) :
    (setFrame addr f).used g = (decide (g = frame addr) || f.used g) :=
  Bitmap.test_set sectionSize (frame addr) g f.frameAllocations

theorem used_clearFrame (addr g : Nat) (f : Frames) :
    (clearFrame addr f).used g = (decide (g ≠ frame addr) && f.used g) :=
  Bitmap.test_clear (by decide) (frame addr) g f.frameAllocations

/-! ### `first_frame` -/

theorem firstClear_spec (w n idx : Nat) :
    match firstClear w n idx with
    | some i => idx ≤ i ∧ i < idx + n ∧ w.testBit i = false ∧
        ∀ j, idx ≤ j → j < i → w.testBit j = true
    | none => ∀ j, idx ≤ j → j < idx + n → w.testBit j = true := by
  induction n generalizing idx with
  | zero => intro j _ _; omega
  | succ n ih =>
      rw [firstClear]
      by_cases hbit : w &&& (1 <<< idx) = 0
      · rw [if_pos hbit]
        exact ⟨Nat.le_refl _, by omega, (Bitmap.and_bit_eq_zero_iff w idx).mp hbit,
          fun j _ _ => by omega⟩
      · rw [if_neg hbit]
        have hset : w.testBit idx = true := by
          rwa [Bitmap.and_bit_eq_zero_iff, Bool.not_eq_false] at hbit
        have hrest := ih (idx + 1)
        cases hfirst : firstClear w n (idx + 1) with
        | some i =>
            rw [hfirst] at hrest
            obtain ⟨hge, hlt, hclear, hbelow⟩ := hrest
            refine ⟨by omega, by omega, hclear, fun j hj hji => ?_⟩
            rcases Nat.eq_or_lt_of_le hj with rfl | hj
            · exact hset
            · exact hbelow j hj hji
        | none =>
            rw [hfirst] at hrest
            intro j hj hjn
            rcases Nat.eq_or_lt_of_le hj with rfl | hj
            · exact hset
            · exact hrest j hj (by omega)

theorem firstFrameFrom_spec (f : Frames) (n sec : Nat) :
    match firstFrameFrom f n sec with
    | some g => sec * 32 ≤ g ∧ g < (sec + n) * 32 ∧ f.used g = false ∧
        ∀ j, sec * 32 ≤ j → j < g → f.used j = true
    | none => ∀ j, sec * 32 ≤ j → j < (sec + n) * 32 → f.used j = true := by
  have hused : ∀ (sec i : Nat), i < 32 → f.used (sec * 32 + i) =
      (f.frameAllocations sec).testBit i := by
    intro sec i hi
    unfold used Bitmap.test sectionSize
    rw [show (sec * 32 + i) / 32 = sec by omega, show (sec * 32 + i) % 32 = i by omega]
  induction n generalizing sec with
  | zero => intro j _ _; omega
  | succ n ih =>
      have hrest := ih (sec + 1)
      -- a section without a clear bit is passed over
      have hskip : (∀ j, sec * 32 ≤ j → j < (sec + 1) * 32 → f.used j = true) →
          match firstFrameFrom f n (sec + 1) with
          | some g => sec * 32 ≤ g ∧ g < (sec + (n + 1)) * 32 ∧ f.used g = false ∧
              ∀ j, sec * 32 ≤ j → j < g → f.used j = true
          | none => ∀ j, sec * 32 ≤ j → j < (sec + (n + 1)) * 32 → f.used j = true := by
        intro hfull
        cases hfirst : firstFrameFrom f n (sec + 1) with
        | some g =>
            rw [hfirst] at hrest
            obtain ⟨hge, hlt, hclear, hbelow⟩ := hrest
            refine ⟨by omega, by omega, hclear, fun j hj hjg => ?_⟩
            by_cases hin : j < (sec + 1) * 32
            · exact hfull j hj hin
            · exact hbelow j (by omega) hjg
        | none =>
            rw [hfirst] at hrest
            intro j hj hjn
            by_cases hin : j < (sec + 1) * 32
            · exact hfull j hj hin
            · exact hrest j (by omega) (by omega)
      rw [firstFrameFrom]
      by_cases hones : f.frameAllocations sec = 0xFFFFFFFF
      · rw [if_neg (not_not.mpr hones)]
        refine hskip fun j hj hjs => Bitmap.test_of_full (by decide) ?_
        rw [show j / sectionSize = sec by unfold sectionSize; omega, hones]
        rfl
      · rw [if_pos hones]
        have hbits := firstClear_spec (f.frameAllocations sec) sectionSize 0
        cases hfirst : firstClear (f.frameAllocations sec) sectionSize 0 with
        | some i =>
            rw [hfirst] at hbits
            obtain ⟨-, hlt, hclear, hbelow⟩ := hbits
            have hi : i < 32 := by unfold sectionSize at hlt; omega
            refine ⟨?_, ?_, ?_, fun j hj hji => ?_⟩
            · unfold sectionSize; omega
            · unfold sectionSize; omega
            · exact (hused sec i hi).trans hclear
            · unfold sectionSize at hji
              rw [show j = sec * 32 + (j - sec * 32) by omega, hused sec _ (by omega)]
              exact hbelow _ (by omega) (by omega)
        | none =>
            rw [hfirst] at hbits
            refine hskip fun j hj hjs => ?_
            rw [show j = sec * 32 + (j - sec * 32) by omega, hused sec _ (by omega)]
            exact hbits _ (by omega) (by unfold sectionSize; omega)

/-- **`first_frame`** gives the first frame that is not used. -/
theorem firstFrame_spec (f : Frames) :
    Bitmap.FirstClear sectionSize f.frameAllocations (f.nframes / sectionSize * sectionSize)
      f.firstFrame := by
  have hspec := firstFrameFrom_spec f (f.nframes / sectionSize) 0
  unfold firstFrame
  cases hfirst : firstFrameFrom f (f.nframes / sectionSize) 0 with
  | some g =>
      rw [hfirst] at hspec
      obtain ⟨-, hlt, hclear, hbelow⟩ := hspec
      rw [Nat.zero_add] at hlt
      exact ⟨Nat.le_of_lt hlt, fun _ => hclear, fun j hj => hbelow j (by omega) hj⟩
  | none =>
      rw [hfirst] at hspec
      refine ⟨Nat.le_refl _, fun hlt => absurd hlt (Nat.lt_irrefl _), fun j hj => ?_⟩
      exact hspec j (by omega) (by rw [Nat.zero_add]; exact hj)

/-! ### `alloc_frame` and `free_frame` -/

theorem allocFrame_of_fr_ne_zero (isSuper isWrite : Nat) (h : page.fr ≠ 0) :
    allocFrame page isSuper isWrite f = .ok (page, f) := if_pos h

/-- The entry that `alloc_frame` writes for a frame. -/
def framed (page : Page) (isWrite fframe : Nat) : Page :=
  { page with pr := 1, rw := if isWrite ≠ 0 then 1 else 0, us := 0, fr := fframe }

theorem allocFrame_of_fr_eq_zero (isSuper isWrite : Nat) (h : page.fr = 0)
    (hfirst : f.firstFrame < 2 ^ 20) :
    allocFrame page isSuper isWrite f =
      .ok (framed page isWrite f.firstFrame, f.setFrame (f.firstFrame * frameSize)) := by
  unfold allocFrame
  rw [if_neg (not_not.mpr h)]
  have hlast : f.firstFrame ≠ 0xFFFFFFFF := by omega
  have haddr : f.firstFrame * frameSize < 4294967296 := by unfold frameSize; omega
  simp only [if_neg hlast, Nat.mod_eq_of_lt hfirst, Nat.mod_eq_of_lt haddr]
  simp [framed]

theorem frame_mul (g : Nat) : frame (g * frameSize) = g := by
  unfold frame frameSize
  omega

theorem freeFrame_of_fr_eq_zero (h : page.fr = 0) : freeFrame page f = (page, f) := if_pos h

/-- Freeing a frame takes the frame's number for an address, so another bit is cleared. -/
theorem freeFrame_of_fr_ne_zero (h : page.fr ≠ 0) :
    freeFrame page f = ({ page with fr := 0 }, f.clearFrame page.fr) := if_neg h

theorem nframes_of_allocFrame {isSuper isWrite : Nat}
    (h : allocFrame page isSuper isWrite f = .ok (page', f')) : f'.nframes = f.nframes := by
  unfold allocFrame at h
  split at h
  · obtain ⟨-, rfl⟩ := Prod.mk.inj (Except.ok.inj h)
    rfl
  · simp only at h
    split at h
    · simp at h
    · obtain ⟨-, rfl⟩ := Prod.mk.inj (Except.ok.inj h)
      rfl

theorem nframes_freeFrame (page : Page) (f : Frames) :
    (freeFrame page f).2.nframes = f.nframes := by
  unfold freeFrame
  split <;> rfl

end Frames

end Vulcanos
