import Mathlib.Data.List.Basic

/-!
# Numerals

The decimal numeral of a number is made of digits, and different numbers have different ones.
-/

namespace Assure.Library

/-- The digits of a number. -/
theorem repr_isDigit (n : Nat) : ∀ c ∈ (Nat.repr n).toList, c.isDigit = true := by
  intro c hc
  rw [Nat.toList_repr] at hc
  exact Nat.isDigit_of_mem_toDigits (by omega) (by omega) hc

/-- Numbers that are written alike are equal. -/
theorem repr_inj {i j : Nat} (h : (Nat.repr i).toList = (Nat.repr j).toList) : i = j := by
  rw [Nat.toList_repr, Nat.toList_repr] at h
  rw [← Nat.ofDigitChars_ten_toDigits (n := i), h, Nat.ofDigitChars_ten_toDigits]

end Assure.Library
