import Mathlib.Data.Nat.Bitwise
import Mathlib.Tactic.Ring

/-!
# 32-bit words as naturals

The source computes addresses and sizes in `uint32_t`. Here a word is a natural number below `2 ^
32` and the operations that can wrap say so. Everything below is about turning a wrapping operation
into the plain one when it does not wrap, and about the two masks a page-based system uses.
-/

namespace Vulcanos.Word

/-- Addition of two 32-bit words. -/
def add32 (a b : Nat) : Nat := (a + b) % 4294967296

/-- Subtraction of two 32-bit words, wrapping below zero. -/
def sub32 (a b : Nat) : Nat := (a + (4294967296 - b % 4294967296)) % 4294967296

/-- The value of an `int16_t` a number is stored in. -/
def int16 (n : Nat) : Int := (n : Int).bmod 65536

/-- The value of an `int32_t` a word is stored in. -/
def int32 (n : Nat) : Int := (n : Int).bmod 4294967296

theorem add32_lt (a b : Nat) : add32 a b < 4294967296 := Nat.mod_lt _ (by decide)

theorem sub32_lt (a b : Nat) : sub32 a b < 4294967296 := Nat.mod_lt _ (by decide)

theorem add32_eq {a b : Nat} (h : a + b < 4294967296) : add32 a b = a + b := Nat.mod_eq_of_lt h

theorem sub32_eq {a b : Nat} (hle : b ≤ a) (ha : a < 4294967296) : sub32 a b = a - b := by
  unfold sub32
  omega

theorem int16_eq {n : Nat} (h : n < 32768) : int16 n = n := by
  unfold int16
  rw [Int.bmod_def]
  omega

theorem int32_eq {n : Nat} (h : n < 2147483648) : int32 n = n := by
  unfold int32
  rw [Int.bmod_def]
  omega

theorem int32_neg {n : Nat} (hlo : 2147483648 ≤ n) (hhi : n < 4294967296) : int32 n < 0 := by
  unfold int32
  rw [Int.bmod_def]
  omega

/-- The high mask clears the low twelve bits, that is, rounds down to a page. -/
theorem and_highMask {x : Nat} (hx : x < 4294967296) : x &&& 0xFFFFF000 = x / 4096 * 4096 := by
  have hmask : (0xFFFFF000 : Nat) = (2 ^ 20 - 1) * 2 ^ 12 := by norm_num
  have hround : x / 4096 * 4096 = (x >>> 12) <<< 12 := by
    rw [Nat.shiftRight_eq_div_pow, Nat.shiftLeft_eq]
  rw [hround, hmask, ← Nat.shiftLeft_eq]
  apply Nat.eq_of_testBit_eq
  intro i
  simp only [Nat.testBit_and, Nat.testBit_shiftLeft, Nat.testBit_shiftRight,
    Nat.testBit_two_pow_sub_one]
  by_cases hi : 12 ≤ i
  · by_cases htop : i - 12 < 20
    · simp [hi, htop]
    · have hzero : x.testBit i = false :=
        Nat.testBit_lt_two_pow (lt_of_lt_of_le hx
          (le_trans (by norm_num) (Nat.pow_le_pow_right (by decide) (show 32 ≤ i by omega))))
      simp [hi, htop, hzero]
  · simp [hi]

theorem and_highMask_eq_zero_iff {x : Nat} (hx : x < 4294967296) :
    x &&& 0xFFFFF000 = 0 ↔ x < 4096 := by
  rw [and_highMask hx]
  omega

theorem and_lowMask (x : Nat) : x &&& 0xFFF = x % 4096 :=
  Nat.and_two_pow_sub_one_eq_mod x 12

theorem and_pageBit (x : Nat) : x &&& 0x1000 = 0 ∨ x &&& 0x1000 = 0x1000 := by
  have hbit := Nat.and_two_pow x 12
  rw [show (2 : Nat) ^ 12 = 0x1000 from rfl] at hbit
  rw [hbit]
  cases x.testBit 12 <;> simp

end Vulcanos.Word
