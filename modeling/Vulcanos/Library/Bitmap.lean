import Mathlib.Data.Nat.Bitwise
import Mathlib.Logic.Function.Basic

/-!
# Bitmaps

A set of naturals as an array of words of `width` bits: `f` is in the set when bit `f % width` of
word `f / width` is set.
-/

namespace Vulcanos.Bitmap

variable {width : Nat} {words : Nat → Nat} {f g n : Nat}

/-- Whether `f` is in the set. -/
def test (width : Nat) (words : Nat → Nat) (f : Nat) : Bool :=
  (words (f / width)).testBit (f % width)

def set (width f : Nat) (words : Nat → Nat) : Nat → Nat :=
  Function.update words (f / width) (words (f / width) ||| (1 <<< (f % width)))

/-- Take `f` out of the set: the mask has every bit of a word but this one. -/
def clear (width f : Nat) (words : Nat → Nat) : Nat → Nat :=
  Function.update words (f / width)
    (words (f / width) &&& ((2 ^ width - 1) ^^^ (1 <<< (f % width))))

/-- Two numbers with the same word and the same bit are the same. -/
theorem eq_of_div_of_mod (hdiv : g / width = f / width) (hmod : g % width = f % width) : g = f := by
  have hg := Nat.div_add_mod g width
  have hf := Nat.div_add_mod f width
  rw [hdiv, hmod] at hg
  omega

theorem test_set (width f g : Nat) (words : Nat → Nat) :
    test width (set width f words) g = (decide (g = f) || test width words g) := by
  unfold test set
  by_cases hword : g / width = f / width
  · rw [hword, Function.update_self, Nat.testBit_or, Nat.one_shiftLeft, Nat.testBit_two_pow,
      Bool.or_comm]
    congr 1
    rw [decide_eq_decide]
    exact ⟨fun hbit => eq_of_div_of_mod hword hbit.symm, fun heq => by rw [heq]⟩
  · rw [Function.update_of_ne hword]
    have hne : g ≠ f := fun heq => hword (by rw [heq])
    simp [hne]

theorem test_clear (hwidth : 0 < width) (f g : Nat) (words : Nat → Nat) :
    test width (clear width f words) g = (decide (g ≠ f) && test width words g) := by
  unfold test clear
  by_cases hword : g / width = f / width
  · rw [hword, Function.update_self, Nat.testBit_and, Nat.testBit_xor, Nat.testBit_two_pow_sub_one,
      Nat.one_shiftLeft, Nat.testBit_two_pow, Bool.and_comm]
    have hbit : decide (g % width < width) = true := decide_eq_true (Nat.mod_lt _ hwidth)
    rw [hbit, Bool.true_xor]
    congr 1
    rw [← decide_not, decide_eq_decide, not_iff_not]
    exact ⟨fun hmod => eq_of_div_of_mod hword hmod.symm, fun heq => by rw [heq]⟩
  · rw [Function.update_of_ne hword]
    have hne : g ≠ f := fun heq => hword (by rw [heq])
    simp [hne]

theorem and_bit_eq_zero_iff (w i : Nat) : w &&& (1 <<< i) = 0 ↔ w.testBit i = false := by
  rw [Nat.one_shiftLeft, Nat.and_two_pow]
  cases w.testBit i <;> simp

theorem test_of_full (hwidth : 0 < width) (hfull : words (f / width) = 2 ^ width - 1) :
    test width words f = true := by
  unfold test
  rw [hfull, Nat.testBit_two_pow_sub_one]
  exact decide_eq_true (Nat.mod_lt _ hwidth)

/-- `f` is the least number below `n` that is not in the set, or `n` when all are. -/
structure FirstClear (width : Nat) (words : Nat → Nat) (n f : Nat) : Prop where
  le : f ≤ n
  clear : f < n → test width words f = false
  below : ∀ g < f, test width words g = true

theorem FirstClear.eq_of_prefix {m : Nat} (h : FirstClear width words n f) (hm : m < n)
    (hset : ∀ g ≤ m, test width words g = decide (g < m)) : f = m := by
  rcases Nat.lt_trichotomy f m with hlt | heq | hgt
  · have hclear := h.clear (by omega)
    rw [hset f (by omega), decide_eq_true hlt] at hclear
    simp at hclear
  · exact heq
  · have hbelow := h.below m hgt
    rw [hset m (Nat.le_refl m), decide_eq_false (Nat.lt_irrefl m)] at hbelow
    simp at hbelow

end Vulcanos.Bitmap
