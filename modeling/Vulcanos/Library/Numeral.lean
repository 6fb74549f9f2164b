import Mathlib.Data.Nat.Digits.Lemmas

/-!
# Numerals

The digits of a number in some radix, as a program finds them by taking remainders until nothing is
left. Zero has the one digit 0, so no numeral is empty, and a numeral begins with 0 only if it is
that of zero.
-/

namespace Vulcanos.Numeral

/-- The digits of a number, least significant first. -/
def lowFirst (radix x : Nat) : List Nat := if x = 0 then [0] else Nat.digits radix x

/-- The digits of a number, most significant first. -/
def numeral (radix x : Nat) : List Nat := (lowFirst radix x).reverse

/-- These digits are a numeral of the number, most significant first. -/
structure IsNumeral (radix x : Nat) (digits : List Nat) : Prop where
  ne_nil : digits ≠ []
  digit_lt : ∀ d ∈ digits, d < radix
  lead : digits.head? = some 0 → x = 0 ∧ digits = [0]
  value : Nat.ofDigits radix digits.reverse = x

section Digits

variable {radix x n : Nat} {digits : List Nat}

theorem lowFirst_eq (hradix : 1 < radix) (x : Nat) :
    lowFirst radix x = x % radix :: if x / radix ≠ 0 then lowFirst radix (x / radix) else [] := by
  unfold lowFirst
  by_cases hx : x = 0
  · subst hx
    rw [if_pos rfl, Nat.zero_mod, Nat.zero_div, if_neg (not_not.mpr rfl)]
  · rw [if_neg hx, Nat.digits_eq_cons_digits_div hradix hx]
    by_cases hrest : x / radix = 0
    · rw [hrest, if_neg (not_not.mpr rfl), Nat.digits_zero]
    · rw [if_pos hrest, if_neg hrest]

theorem length_lowFirst_pos (radix x : Nat) : 0 < (lowFirst radix x).length := by
  unfold lowFirst
  split
  · exact Nat.one_pos
  · rename_i hx
    exact List.length_pos_iff.mpr (Nat.digits_ne_nil_iff_ne_zero.mpr hx)

theorem lt_of_mem_lowFirst (hradix : 1 < radix) {d : Nat} (hd : d ∈ lowFirst radix x) :
    d < radix := by
  unfold lowFirst at hd
  split at hd
  · obtain rfl := List.mem_singleton.mp hd
    exact Nat.lt_of_succ_lt hradix
  · exact Nat.digits_lt_base hradix hd

/-- **How many digits there are.** -/
theorem length_lowFirst_le_iff (hradix : 1 < radix) (hn : 0 < n) :
    (lowFirst radix x).length ≤ n ↔ x < radix ^ n := by
  unfold lowFirst
  split
  · rename_i hx
    subst hx
    exact iff_of_true hn (Nat.pow_pos (Nat.zero_lt_of_lt hradix))
  · exact Nat.digits_length_le_iff hradix x

@[simp]
theorem length_numeral (radix x : Nat) :
    (numeral radix x).length = (lowFirst radix x).length := List.length_reverse

/-- **The numeral of a number is one.** -/
theorem isNumeral_numeral (hradix : 1 < radix) (x : Nat) :
    IsNumeral radix x (numeral radix x) where
  ne_nil := fun h => by
    have hlength := length_lowFirst_pos radix x
    rw [← length_numeral, h] at hlength
    exact Nat.lt_irrefl 0 hlength
  digit_lt := fun d hd => lt_of_mem_lowFirst hradix (List.mem_reverse.mp hd)
  lead := by
    intro hhead
    unfold numeral lowFirst at hhead ⊢
    split at hhead
    · rename_i hx
      exact ⟨hx, by rw [if_pos hx]; rfl⟩
    · rename_i hx
      rw [List.head?_reverse] at hhead
      have hne := Nat.digits_ne_nil_iff_ne_zero (b := radix).mpr hx
      rw [List.getLast?_eq_some_getLast hne] at hhead
      exact absurd (Option.some.inj hhead) (Nat.getLast_digit_ne_zero radix hx)
  value := by
    unfold numeral lowFirst
    rw [List.reverse_reverse]
    split
    · rename_i hx
      rw [hx, Nat.ofDigits_singleton]
    · exact Nat.ofDigits_digits radix x

end Digits

end Vulcanos.Numeral
