import Mathlib.Algebra.Order.Field.Power
import Mathlib.Algebra.Order.Floor.Ring
import Mathlib.Data.Nat.Log
import Mathlib.Data.Rat.Floor
import Mathlib.Order.Bounds.Basic
import Mathlib.Tactic.Linarith
import Mathlib.Tactic.Positivity

/-!
# Binary formats and rounding toward zero

The finite values of a binary floating-point format are the integers below `2 ^ precision` scaled by the powers of two
that the exponents allow. An integer is rounded toward zero by cutting the bits below the precision, and to the largest
value where its exponent is too large. `isGreatest_truncated` says that nothing of the format lies between the result and
the integer; the order of the format is all that the users of this module need.
-/

namespace Assure.Library

structure BinaryFormat where
  precision : Nat
  minExponent : Int
  maxExponent : Int
  precision_pos : 0 < precision
  minExponent_le : minExponent ≤ 0
  maxExponent_nonneg : 0 ≤ maxExponent

namespace BinaryFormat

variable (format : BinaryFormat)

/-- The finite values of a format. -/
def Represents (q : ℚ) : Prop :=
  ∃ significand exponent : ℤ, |significand| < 2 ^ format.precision ∧
    format.minExponent - (format.precision - 1) ≤ exponent ∧ exponent ≤ format.maxExponent - (format.precision - 1) ∧
    q = significand * 2 ^ exponent

def largest : ℚ := (2 ^ format.precision - 1) * 2 ^ (format.maxExponent - (format.precision - 1))

/-- The last bit that is kept of a number below `2 ^ (exponent + 1)`. -/
def lastPlace (exponent : Nat) : ℤ := exponent - (format.precision - 1)

/-- A number with the bits below the precision cut off. -/
def truncated (n : Nat) : ℚ :=
  if format.maxExponent < Nat.log 2 n then format.largest
  else ⌊(n : ℚ) * 2 ^ (-format.lastPlace (Nat.log 2 n))⌋ * 2 ^ format.lastPlace (Nat.log 2 n)

def roundTowardZero (n : ℤ) : ℚ := if n < 0 then -format.truncated n.natAbs else format.truncated n.natAbs

variable {format} {q : ℚ} {n : Nat}

/-- The sign is stored apart, so a format has the negatives of its numbers. -/
theorem Represents.neg (h : format.Represents q) : format.Represents (-q) := by
  obtain ⟨significand, exponent, hsize, hmin, hmax, rfl⟩ := h
  exact ⟨-significand, exponent, by rwa [abs_neg], hmin, hmax, by push_cast; ring⟩

/-- The largest number is one of the format. -/
theorem represents_largest : format.Represents format.largest := by
  have hone : (1 : ℤ) ≤ 2 ^ format.precision := one_le_pow₀ (by norm_num)
  refine ⟨2 ^ format.precision - 1, format.maxExponent - (format.precision - 1), ?_, ?_, le_refl _, ?_⟩
  · rw [abs_of_nonneg (by omega)]
    omega
  · have := format.minExponent_le
    have := format.maxExponent_nonneg
    omega
  · rw [largest]
    push_cast
    ring

/-- No number of the format exceeds it. -/
theorem Represents.le_largest (h : format.Represents q) : q ≤ format.largest := by
  obtain ⟨significand, exponent, hsize, -, hmax, rfl⟩ := h
  have hone : (1 : ℤ) ≤ 2 ^ format.precision := one_le_pow₀ (by norm_num)
  have hsig : (significand : ℚ) ≤ 2 ^ format.precision - 1 := by
    have : significand ≤ 2 ^ format.precision - 1 := by
      have := (abs_lt.mp hsize).2
      omega
    exact_mod_cast this
  calc (significand : ℚ) * 2 ^ exponent
      ≤ (2 ^ format.precision - 1) * 2 ^ exponent := mul_le_mul_of_nonneg_right hsig (by positivity)
    _ ≤ format.largest := by
      apply mul_le_mul_of_nonneg_left (zpow_le_zpow_right₀ (by norm_num) hmax)
      have : (1 : ℚ) ≤ 2 ^ format.precision := by exact_mod_cast hone
      linarith

/-- The largest number stays under the next power of two. -/
theorem largest_lt : format.largest < 2 ^ (format.maxExponent + 1) := by
  have hsplit : (2 : ℚ) ^ (format.maxExponent + 1) =
      2 ^ format.precision * 2 ^ (format.maxExponent - (format.precision - 1)) := by
    rw [← zpow_natCast, ← zpow_add₀ (by norm_num)]
    congr 1
    omega
  rw [largest, hsplit]
  apply mul_lt_mul_of_pos_right _ (by positivity)
  linarith

/-- What a number with a smaller last place is worth. -/
theorem Represents.lt_of_place {significand exponent place : ℤ} (hsize : |significand| < 2 ^ format.precision)
    (hplace : exponent < place) : (significand : ℚ) * 2 ^ exponent < 2 ^ (place + (format.precision - 1)) := by
  have hsig : (significand : ℚ) < 2 ^ format.precision := by exact_mod_cast (abs_lt.mp hsize).2
  calc (significand : ℚ) * 2 ^ exponent
      < 2 ^ format.precision * 2 ^ exponent := mul_lt_mul_of_pos_right hsig (by positivity)
    _ = 2 ^ (format.precision + exponent) := by rw [← zpow_natCast, ← zpow_add₀ (by norm_num)]
    _ ≤ 2 ^ (place + (format.precision - 1)) := zpow_le_zpow_right₀ (by norm_num) (by omega)

variable (format) in
/-- Shifted to its last place, a number has no more binary digits than the precision, which bounds
the digits that are kept. -/
theorem scaled_lt (n : Nat) : (n : ℚ) * 2 ^ (-format.lastPlace (Nat.log 2 n)) < 2 ^ format.precision := by
  have hlt : (n : ℚ) < 2 ^ (Nat.log 2 n + 1) := by exact_mod_cast Nat.lt_pow_succ_log_self (by norm_num) n
  calc (n : ℚ) * 2 ^ (-format.lastPlace (Nat.log 2 n))
      < 2 ^ (Nat.log 2 n + 1) * 2 ^ (-format.lastPlace (Nat.log 2 n)) :=
        mul_lt_mul_of_pos_right hlt (by positivity)
    _ = 2 ^ format.precision := by
      rw [← zpow_natCast, ← zpow_natCast, ← zpow_add₀ (by norm_num), lastPlace]
      congr 1
      omega

/-- Shifted to its last place, a number has all the digits of the precision, so none are given away.
-/
theorem le_scaled (hn : n ≠ 0) : (2 : ℚ) ^ (format.precision - 1) ≤ n * 2 ^ (-format.lastPlace (Nat.log 2 n)) := by
  have hle : (2 : ℚ) ^ Nat.log 2 n ≤ n := by exact_mod_cast Nat.pow_log_le_self 2 hn
  have hp := format.precision_pos
  calc (2 : ℚ) ^ (format.precision - 1)
      = 2 ^ Nat.log 2 n * 2 ^ (-format.lastPlace (Nat.log 2 n)) := by
        rw [← zpow_natCast, ← zpow_natCast, ← zpow_add₀ (by norm_num), lastPlace]
        congr 1
        omega
    _ ≤ n * 2 ^ (-format.lastPlace (Nat.log 2 n)) := mul_le_mul_of_nonneg_right hle (by positivity)

/-- Shifting there and back changes nothing. -/
theorem scaled_back (n : Nat) (place : ℤ) : (n : ℚ) * 2 ^ (-place) * 2 ^ place = n := by
  rw [mul_assoc, ← zpow_add₀ (by norm_num), neg_add_cancel, zpow_zero, mul_one]

/-- What is left when the digits behind the last place are cut off is a number of the format. -/
theorem represents_kept (hfits : ¬ format.maxExponent < Nat.log 2 n) : format.Represents
    (⌊(n : ℚ) * 2 ^ (-format.lastPlace (Nat.log 2 n))⌋ * 2 ^ format.lastPlace (Nat.log 2 n)) := by
  refine ⟨_, _, ?_, ?_, ?_, rfl⟩
  · rw [abs_of_nonneg (Int.floor_nonneg.mpr (by positivity))]
    have := (Int.floor_le _).trans_lt (scaled_lt format n)
    exact_mod_cast this
  · have := format.minExponent_le
    rw [lastPlace]
    omega
  · rw [lastPlace]
    omega

/-- A value of the format that is at most the number has its last place above the cut, or lies below the first bit. -/
theorem Represents.le_kept (h : format.Represents q) (hle : q ≤ n) :
    q ≤ ⌊(n : ℚ) * 2 ^ (-format.lastPlace (Nat.log 2 n))⌋ * 2 ^ format.lastPlace (Nat.log 2 n) := by
  obtain ⟨significand, exponent, hsize, -, -, rfl⟩ := h
  set place := format.lastPlace (Nat.log 2 n) with hplace
  rcases lt_or_ge exponent place with hlt | hge
  · rcases Nat.eq_zero_or_pos n with rfl | hn
    · simpa using hle
    · have hfloor : (2 : ℤ) ^ (format.precision - 1) ≤ ⌊(n : ℚ) * 2 ^ (-place)⌋ :=
        Int.le_floor.mpr (by exact_mod_cast le_scaled (Nat.pos_iff_ne_zero.mp hn))
      have hp := format.precision_pos
      calc (significand : ℚ) * 2 ^ exponent
          ≤ 2 ^ (place + (format.precision - 1)) := (Represents.lt_of_place hsize hlt).le
        _ = 2 ^ (format.precision - 1) * 2 ^ place := by
          rw [← zpow_natCast, ← zpow_add₀ (by norm_num)]
          congr 1
          omega
        _ ≤ ⌊(n : ℚ) * 2 ^ (-place)⌋ * 2 ^ place := by
          apply mul_le_mul_of_nonneg_right _ (by positivity)
          exact_mod_cast hfloor
  · obtain ⟨shift, rfl⟩ := Int.le.dest hge
    have hmultiple : (significand : ℚ) * 2 ^ (place + (shift : ℤ)) = ((significand * 2 ^ shift : ℤ) : ℚ) * 2 ^
        place := by
      rw [zpow_add₀ (by norm_num), zpow_natCast]
      push_cast
      ring
    rw [hmultiple] at hle ⊢
    apply mul_le_mul_of_nonneg_right _ (by positivity)
    have : significand * 2 ^ shift ≤ ⌊(n : ℚ) * 2 ^ (-place)⌋ := by
      rw [Int.le_floor]
      refine le_of_mul_le_mul_right ?_ (show (0 : ℚ) < 2 ^ place by positivity)
      rwa [scaled_back]
    exact_mod_cast this

/-- Cutting digits off makes the number no larger. -/
theorem kept_le (n : Nat) (place : ℤ) : (⌊(n : ℚ) * 2 ^ (-place)⌋ : ℚ) * 2 ^ place ≤ n := by
  calc (⌊(n : ℚ) * 2 ^ (-place)⌋ : ℚ) * 2 ^ place
      ≤ n * 2 ^ (-place) * 2 ^ place := mul_le_mul_of_nonneg_right (Int.floor_le _) (by positivity)
    _ = n := scaled_back n place

variable (format) in
/-- **A number rounded toward zero is the greatest value of the format that is at most the number.** -/
theorem isGreatest_truncated (n : Nat) : IsGreatest {q : ℚ | format.Represents q ∧ q ≤ n} (format.truncated n) := by
  rw [truncated]
  split
  · rename_i hover
    have hn : n ≠ 0 := by
      rintro rfl
      have := format.maxExponent_nonneg
      rw [Nat.log_zero_right] at hover
      omega
    have hle : (2 : ℚ) ^ (format.maxExponent + 1) ≤ n := by
      calc (2 : ℚ) ^ (format.maxExponent + 1)
          ≤ 2 ^ (Nat.log 2 n : ℤ) := zpow_le_zpow_right₀ (by norm_num) (by omega)
        _ ≤ n := by
          rw [zpow_natCast]
          exact_mod_cast Nat.pow_log_le_self 2 hn
    exact ⟨⟨represents_largest, (largest_lt.trans_le hle).le⟩, fun q hq => hq.1.le_largest⟩
  · rename_i hfits
    exact ⟨⟨represents_kept hfits, kept_le _ _⟩, fun q hq => hq.1.le_kept hq.2⟩

/-- Zero is a number of every format. -/
theorem represents_zero : format.Represents 0 := by
  refine ⟨0, format.maxExponent - (format.precision - 1), by simp, ?_, le_refl _, by simp⟩
  have := format.minExponent_le
  have := format.maxExponent_nonneg
  omega

/-- One is a number of every format. -/
theorem represents_one : format.Represents 1 := by
  have hp := format.precision_pos
  have hmin := format.minExponent_le
  have hmax := format.maxExponent_nonneg
  refine ⟨2 ^ (format.precision - 1), -((format.precision - 1 : Nat) : ℤ), ?_, by omega, by omega, ?_⟩
  · rw [abs_of_nonneg (by positivity)]
    exact pow_lt_pow_right₀ (by norm_num) (by omega)
  · push_cast
    rw [zpow_neg, zpow_natCast, mul_inv_cancel₀ (by positivity)]

/-- What is left of a number that is not negative is not negative. -/
theorem truncated_nonneg (n : Nat) : 0 ≤ format.truncated n :=
  (isGreatest_truncated format n).2 ⟨represents_zero, n.cast_nonneg⟩

/-- Rounding a whole number that is not negative towards zero gives the greatest number of the
format up to it. -/
theorem isGreatest_roundTowardZero {n : ℤ} (hn : 0 ≤ n) :
    IsGreatest {q : ℚ | format.Represents q ∧ q ≤ n} (format.roundTowardZero n) := by
  obtain ⟨k, rfl⟩ := Int.eq_ofNat_of_zero_le hn
  rw [roundTowardZero, if_neg (not_lt.mpr hn)]
  exact isGreatest_truncated format k

/-- Rounding one that is not positive gives the least number of the format from it on, by symmetry.
-/
theorem isLeast_roundTowardZero {n : ℤ} (hn : n ≤ 0) :
    IsLeast {q : ℚ | format.Represents q ∧ n ≤ q} (format.roundTowardZero n) := by
  obtain ⟨k, hk⟩ := Int.eq_ofNat_of_zero_le (neg_nonneg.mpr hn)
  obtain rfl : n = -(k : ℤ) := by omega
  have hround : format.roundTowardZero (-(k : ℤ)) = -format.truncated k := by
    rw [roundTowardZero, Int.natAbs_neg, Int.natAbs_natCast]
    split
    · rfl
    · obtain rfl : k = 0 := by omega
      have : format.truncated 0 = 0 := le_antisymm (by simpa using (isGreatest_truncated format 0).1.2)
        (truncated_nonneg 0)
      rw [this, neg_zero]
  rw [hround]
  obtain ⟨⟨hrep, hle⟩, hmax⟩ := isGreatest_truncated format k
  refine ⟨⟨hrep.neg, ?_⟩, fun q hq => ?_⟩
  · push_cast
    linarith
  · have := hmax ⟨hq.1.neg, by have := hq.2; push_cast at this; linarith⟩
    linarith

/-- What comes out of the rounding is a number of the format in any case. -/
theorem represents_roundTowardZero {n : ℤ} : format.Represents (format.roundTowardZero n) := by
  rcases le_total 0 n with hn | hn
  · exact (isGreatest_roundTowardZero hn).1.1
  · exact (isLeast_roundTowardZero hn).1.1

end BinaryFormat

end Assure.Library
