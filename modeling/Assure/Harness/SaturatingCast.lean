import Assure.Library.BinaryFormat
import Mathlib.Order.Lattice
import Mathlib.Tactic.NormNum

/-!
# The saturating cast from float to integer

KLEE has no `llvm.fptosi.sat` and no `llvm.fptoui.sat`, so the pass puts a chain of compares and selects in their place.
The chain compares with the ends of the integer range rounded toward zero into the float format.

Where an end is no value of the format, the value next to it inside the range is its rounding, and the chain takes this
value for one that is out of range. `loweredCast_iff` says that this is the only fault, and that the plain conversion is
never selected where it is poison.

The equivalence is for every width, sign and binary format and for every value, NaN and the
infinities included. Flags of the floating-point environment are not modelled.
-/

namespace Assure

open Assure.Library

/-- An integer type of LLVM has a bit at least. -/
structure IntegerType where
  bitWidth : Nat
  bitWidth_pos : 0 < bitWidth

/-- A value of a floating-point type. The two zeros compare and convert alike. -/
inductive FpValue (format : BinaryFormat)
  | nan
  | inf (negative : Bool)
  | finite (q : ℚ) (represents : format.Represents q)

variable {format : BinaryFormat}

namespace FpValue

/-- `fcmp uno` -/
def fcmpUNO : FpValue format → FpValue format → Bool
  | nan, _ => true
  | _, nan => true
  | _, _ => false

/-- `fcmp ole` -/
def fcmpOLE : FpValue format → FpValue format → Bool
  | nan, _ => false
  | _, nan => false
  | inf true, _ => true
  | _, inf false => true
  | finite q _, finite r _ => q ≤ r
  | _, _ => false

/-- `fcmp oge` -/
def fcmpOGE (x y : FpValue format) : Bool := fcmpOLE y x

end FpValue

/-- A rational without its fraction. -/
def truncate (q : ℚ) : ℤ := if 0 ≤ q then ⌊q⌋ else ⌈q⌉

variable (isSigned : Bool) (intType : IntegerType)

/-- The number that a constant stands for. -/
def readAPInt (n : BitVec intType.bitWidth) : ℤ := if isSigned then n.toInt else n.toNat

/-- `max_int` -/
def maxInt : BitVec intType.bitWidth :=
  if isSigned then BitVec.intMax intType.bitWidth else BitVec.allOnes intType.bitWidth

/-- `min_int` -/
def minInt : BitVec intType.bitWidth := if isSigned then BitVec.intMin intType.bitWidth else 0

/-- The largest number of the type. -/
def highest : ℤ := readAPInt isSigned intType (maxInt isSigned intType)

/-- The least number of the type. -/
def lowest : ℤ := readAPInt isSigned intType (minInt isSigned intType)

/-- `convertFromAPInt(…, is_signed, rmTowardZero)` -/
def convertFromAPInt (n : BitVec intType.bitWidth) : FpValue format :=
  .finite (format.roundTowardZero (readAPInt isSigned intType n)) BinaryFormat.represents_roundTowardZero

/-- `fptosi` and `fptoui`. A number that does not fit is poison. -/
def createFPToInt : FpValue format → Option (BitVec intType.bitWidth)
  | .finite q _ =>
    if lowest isSigned intType ≤ truncate q ∧ truncate q ≤ highest isSigned intType then
      some (BitVec.ofInt intType.bitWidth (truncate q))
    else none
  | _ => none

/-- `select` hands on poison only from the side that it takes. -/
def createSelect {α : Type} (condition : Bool) (whenTrue whenFalse : Option α) : Option α :=
  if condition then whenTrue else whenFalse

/-- The chain that `lower_saturating_fp_to_int` builds, for the value that the cast is of. -/
def lowerSaturatingFpToInt (x : FpValue format) : Option (BitVec intType.bitWidth) :=
  let maxFp : FpValue format := convertFromAPInt isSigned intType (maxInt isSigned intType)
  let minFp : FpValue format := convertFromAPInt isSigned intType (minInt isSigned intType)
  let converted := createFPToInt isSigned intType x
  let isNan := x.fcmpUNO x
  let geMax := x.fcmpOGE maxFp
  let leMin := x.fcmpOLE minFp
  let result := createSelect geMax (some (maxInt isSigned intType)) converted
  let result := createSelect leMin (some (minInt isSigned intType)) result
  createSelect isNan (some 0) result

/-- `llvm.fptosi.sat` and `llvm.fptoui.sat`, as they are defined: a number is cut at the ends of the range. -/
def saturatingCast : FpValue format → BitVec intType.bitWidth
  | .nan => 0
  | .inf negative => if negative then minInt isSigned intType else maxInt isSigned intType
  | .finite q _ =>
    BitVec.ofInt intType.bitWidth (max (lowest isSigned intType) (min (truncate q) (highest isSigned intType)))

/-- A number is the last value of the format below an integer that is none. -/
def IsLastBelow (format : BinaryFormat) (n : ℤ) (q : ℚ) : Prop :=
  IsGreatest {r : ℚ | format.Represents r ∧ r ≤ n} q ∧ q < n

/-- A number is the first value of the format above an integer that is none. -/
def IsFirstAbove (format : BinaryFormat) (n : ℤ) (q : ℚ) : Prop :=
  IsLeast {r : ℚ | format.Represents r ∧ n ≤ r} q ∧ n < q

section Range

variable {isSigned intType}

/-- The greatest value of the type, signed or not. -/
theorem highest_eq : highest isSigned intType =
    if isSigned then 2 ^ (intType.bitWidth - 1) - 1 else 2 ^ intType.bitWidth - 1 := by
  cases isSigned with
  | false =>
    simp only [highest, readAPInt, maxInt, Bool.false_eq_true, if_false, BitVec.toNat_allOnes]
    rw [Nat.cast_sub Nat.one_le_two_pow]
    norm_num
  | true => simp only [highest, readAPInt, maxInt, if_true, BitVec.toInt_intMax]

/-- The least value of the type, signed or not. -/
theorem lowest_eq : lowest isSigned intType = if isSigned then -2 ^ (intType.bitWidth - 1) else 0 := by
  cases isSigned with
  | false => simp [lowest, readAPInt, minInt]
  | true => simp only [lowest, readAPInt, minInt, if_true, BitVec.toInt_intMin_of_pos intType.bitWidth_pos]

/-- The greatest value is not negative. -/
theorem highest_nonneg : 0 ≤ highest isSigned intType := by
  rw [highest_eq]
  have hsigned : (0 : ℤ) < 2 ^ (intType.bitWidth - 1) := by positivity
  have hunsigned : (0 : ℤ) < 2 ^ intType.bitWidth := by positivity
  split <;> omega

/-- The least value is not positive. -/
theorem lowest_nonpos : lowest isSigned intType ≤ 0 := by
  rw [lowest_eq]
  have hsigned : (0 : ℤ) < 2 ^ (intType.bitWidth - 1) := by positivity
  split <;> omega

/-- The two are different, so the two bounds are never met at once. -/
theorem lowest_lt_highest : lowest isSigned intType < highest isSigned intType := by
  rw [lowest_eq, highest_eq]
  have hsigned : (0 : ℤ) < 2 ^ (intType.bitWidth - 1) := by positivity
  have hunsigned : (1 : ℤ) < 2 ^ intType.bitWidth := one_lt_pow₀ (by norm_num) intType.bitWidth_pos.ne'
  split <;> omega

/-- A number in the range is read back. -/
theorem readAPInt_ofInt {n : ℤ} (hlow : lowest isSigned intType ≤ n) (hhigh : n ≤ highest isSigned intType) :
    readAPInt isSigned intType (BitVec.ofInt intType.bitWidth n) = n := by
  rw [lowest_eq] at hlow
  rw [highest_eq] at hhigh
  cases isSigned with
  | false =>
    simp only [Bool.false_eq_true, if_false] at hlow hhigh
    simp only [readAPInt, Bool.false_eq_true, if_false, BitVec.toNat_ofInt]
    rw [Int.emod_eq_of_lt hlow (by push_cast; omega), Int.toNat_of_nonneg hlow]
  | true =>
    simp only [if_true] at hlow hhigh
    rw [readAPInt, if_pos rfl]
    exact BitVec.toInt_ofInt_eq_self intType.bitWidth_pos (by exact_mod_cast hlow) (by omega)

/-- Reading the bits as a number and writing it gives the bits back. -/
theorem ofInt_readAPInt (n : BitVec intType.bitWidth) :
    BitVec.ofInt intType.bitWidth (readAPInt isSigned intType n) = n := by
  cases isSigned with
  | false => simp [readAPInt]
  | true => simp [readAPInt]

/-- The greatest value is written as the constant the code saturates to from above. -/
theorem ofInt_highest : BitVec.ofInt intType.bitWidth (highest isSigned intType) = maxInt isSigned intType :=
  ofInt_readAPInt _

/-- The least value is written as the constant the code saturates to from below. -/
theorem ofInt_lowest : BitVec.ofInt intType.bitWidth (lowest isSigned intType) = minInt isSigned intType :=
  ofInt_readAPInt _

/-- Numbers of the range have different bits. -/
theorem ofInt_inj {m n : ℤ} (hm : lowest isSigned intType ≤ m ∧ m ≤ highest isSigned intType)
    (hn : lowest isSigned intType ≤ n ∧ n ≤ highest isSigned intType)
    (h : BitVec.ofInt intType.bitWidth m = BitVec.ofInt intType.bitWidth n) : m = n := by
  rw [← readAPInt_ofInt hm.1 hm.2, h, readAPInt_ofInt hn.1 hn.2]

end Range

section Truncate

variable {q r : ℚ} {n : ℤ}

/-- A value that is not negative is truncated downwards. -/
theorem truncate_of_nonneg (h : 0 ≤ q) : truncate q = ⌊q⌋ := if_pos h

/-- A value that is not positive is truncated upwards. -/
theorem truncate_of_nonpos (h : q ≤ 0) : truncate q = ⌈q⌉ := by
  rcases h.lt_or_eq with h | rfl
  · exact if_neg (not_le.mpr h)
  · rfl

/-- A whole number is its own truncation. -/
theorem truncate_intCast (n : ℤ) : truncate n = n := by
  rw [truncate]
  split
  · exact Int.floor_intCast n
  · exact Int.ceil_intCast n

/-- Truncation keeps the order. -/
theorem truncate_mono (h : q ≤ r) : truncate q ≤ truncate r := by
  rcases le_total 0 q with hq | hq
  · rw [truncate_of_nonneg hq, truncate_of_nonneg (hq.trans h)]
    exact Int.floor_le_floor h
  · rw [truncate_of_nonpos hq]
    rcases le_total 0 r with hr | hr
    · rw [truncate_of_nonneg hr]
      exact (Int.ceil_le.mpr (by exact_mod_cast hq)).trans (Int.floor_nonneg.mpr hr)
    · rw [truncate_of_nonpos hr]
      exact Int.ceil_le_ceil h

/-- What is at most a whole number is so after truncation. -/
theorem truncate_le (h : q ≤ n) : truncate q ≤ n := truncate_intCast n ▸ truncate_mono h

/-- What is at least a whole number is so after truncation. -/
theorem le_truncate (h : n ≤ q) : n ≤ truncate q := truncate_intCast n ▸ truncate_mono h

end Truncate

section Chain

variable {isSigned intType} {q : ℚ}

/-- The constant compared with from above is the greatest number of the format that does not exceed
the greatest value: the rounding is towards zero. -/
theorem isGreatest_highest : IsGreatest {r : ℚ | format.Represents r ∧ r ≤ highest isSigned intType}
    (format.roundTowardZero (highest isSigned intType)) :=
  BinaryFormat.isGreatest_roundTowardZero highest_nonneg

/-- The constant compared with from below is the least number of the format that is not under the
least value. -/
theorem isLeast_lowest : IsLeast {r : ℚ | format.Represents r ∧ lowest isSigned intType ≤ r}
    (format.roundTowardZero (lowest isSigned intType)) :=
  BinaryFormat.isLeast_roundTowardZero lowest_nonpos

/-- A number that the chain takes for too large is too large, or the last one below the end of the range. -/
theorem highest_le_of_geMax (hrep : format.Represents q) (hlast : ¬ IsLastBelow format (highest isSigned intType) q)
    (h : format.roundTowardZero (highest isSigned intType) ≤ q) : highest isSigned intType ≤ q := by
  by_contra hlt
  rw [not_le] at hlt
  have hq : q = format.roundTowardZero (highest isSigned intType) :=
    le_antisymm (isGreatest_highest.2 ⟨hrep, hlt.le⟩) h
  exact hlast ⟨hq ▸ isGreatest_highest, hlt⟩

/-- A number that the chain takes for too small is too small, or the first one above the end of the range. -/
theorem le_lowest_of_leMin (hrep : format.Represents q) (hfirst : ¬ IsFirstAbove format (lowest isSigned intType) q)
    (h : q ≤ format.roundTowardZero (lowest isSigned intType)) : q ≤ lowest isSigned intType := by
  by_contra hlt
  rw [not_le] at hlt
  have hq : q = format.roundTowardZero (lowest isSigned intType) :=
    le_antisymm h (isLeast_lowest.2 ⟨hrep, hlt.le⟩)
  exact hfirst ⟨hq ▸ isLeast_lowest, hlt⟩

/-- The last number below the end of the range is above the other end. -/
theorem not_leMin_of_isLastBelow (hlast : IsLastBelow format (highest isSigned intType) q) :
    ¬ q ≤ format.roundTowardZero (lowest isSigned intType) := by
  have hzero : 0 ≤ q := hlast.1.2 ⟨BinaryFormat.represents_zero, by exact_mod_cast highest_nonneg⟩
  have hpos : (0 : ℤ) < highest isSigned intType := by exact_mod_cast hzero.trans_lt hlast.2
  have hone : 1 ≤ q := hlast.1.2 ⟨BinaryFormat.represents_one, by exact_mod_cast hpos⟩
  have hlow : format.roundTowardZero (lowest isSigned intType) ≤ 0 :=
    isLeast_lowest.2 ⟨BinaryFormat.represents_zero, by exact_mod_cast lowest_nonpos⟩
  linarith

/-- Up to the least value the cast gives the least value. -/
theorem saturatingCast_of_le_lowest {hrep : format.Represents q} (h : q ≤ lowest isSigned intType) :
    saturatingCast isSigned intType (.finite q hrep) = minInt isSigned intType := by
  rw [saturatingCast, max_eq_left ((min_le_left _ _).trans (truncate_le h)), ofInt_lowest]

/-- From the greatest value on it gives the greatest value. -/
theorem saturatingCast_of_highest_le {hrep : format.Represents q} (h : highest isSigned intType ≤ q) :
    saturatingCast isSigned intType (.finite q hrep) = maxInt isSigned intType := by
  rw [saturatingCast, min_eq_right (le_truncate h), max_eq_right lowest_lt_highest.le, ofInt_highest]

/-- In between it gives the truncation. -/
theorem saturatingCast_of_mem {hrep : format.Represents q} (hlow : lowest isSigned intType ≤ truncate q)
    (hhigh : truncate q ≤ highest isSigned intType) :
    saturatingCast isSigned intType (.finite q hrep) = BitVec.ofInt intType.bitWidth (truncate q) := by
  rw [saturatingCast, min_eq_left hhigh, max_eq_right hlow]

/-- The chain on a number. -/
theorem lowerSaturatingFpToInt_finite (hrep : format.Represents q) :
    lowerSaturatingFpToInt isSigned intType (.finite q hrep) =
      if q ≤ format.roundTowardZero (lowest isSigned intType) then some (minInt isSigned intType)
      else if format.roundTowardZero (highest isSigned intType) ≤ q then some (maxInt isSigned intType)
      else createFPToInt isSigned intType (.finite q hrep) := by
  simp only [lowerSaturatingFpToInt, createSelect, FpValue.fcmpUNO, FpValue.fcmpOLE, FpValue.fcmpOGE,
    convertFromAPInt, Bool.false_eq_true, if_false, decide_eq_true_eq]
  rfl

/-- **Where the plain conversion is selected, the number fits.** -/
theorem createFPToInt_of_between (hrep : format.Represents q)
    (hlow : ¬ q ≤ format.roundTowardZero (lowest isSigned intType))
    (hhigh : ¬ format.roundTowardZero (highest isSigned intType) ≤ q) :
    createFPToInt isSigned intType (.finite q hrep) = some (saturatingCast isSigned intType (.finite q hrep)) := by
  have hlow' : lowest isSigned intType ≤ truncate q :=
    le_truncate (isLeast_lowest.1.2.trans (not_le.mp hlow).le)
  have hhigh' : truncate q ≤ highest isSigned intType :=
    truncate_le ((not_le.mp hhigh).le.trans isGreatest_highest.1.2)
  rw [createFPToInt, if_pos ⟨hlow', hhigh'⟩, saturatingCast_of_mem hlow' hhigh']

/-- The last number of the format below the greatest value is inside the type, so the cast owes its
truncation. -/
theorem truncate_of_isLastBelow (h : IsLastBelow format (highest isSigned intType) q) :
    lowest isSigned intType ≤ truncate q ∧ truncate q < highest isSigned intType := by
  have hzero : 0 ≤ q := h.1.2 ⟨BinaryFormat.represents_zero, by exact_mod_cast highest_nonneg⟩
  refine ⟨lowest_nonpos.trans (le_truncate (by exact_mod_cast hzero)), ?_⟩
  rw [truncate_of_nonneg hzero]
  exact Int.floor_lt.mpr h.2

/-- The first number of the format above the least value is inside the type as well. -/
theorem truncate_of_isFirstAbove (h : IsFirstAbove format (lowest isSigned intType) q) :
    lowest isSigned intType < truncate q ∧ truncate q ≤ highest isSigned intType := by
  have hzero : q ≤ 0 := h.1.2 ⟨BinaryFormat.represents_zero, by exact_mod_cast lowest_nonpos⟩
  refine ⟨?_, (truncate_le (by exact_mod_cast hzero)).trans highest_nonneg⟩
  rw [truncate_of_nonpos hzero]
  exact Int.lt_ceil.mpr h.2

/-- The chain gives the end of the range for the last number below it. -/
theorem lowerSaturatingFpToInt_ne_of_isLastBelow {hrep : format.Represents q}
    (hlast : IsLastBelow format (highest isSigned intType) q) :
    lowerSaturatingFpToInt isSigned intType (.finite q hrep) ≠
      some (saturatingCast isSigned intType (.finite q hrep)) := by
  obtain ⟨hlow, hhigh⟩ := truncate_of_isLastBelow hlast
  rw [lowerSaturatingFpToInt_finite, if_neg (not_leMin_of_isLastBelow hlast),
    if_pos (hlast.1.2 isGreatest_highest.1), saturatingCast_of_mem hlow hhigh.le, ← ofInt_highest]
  intro heq
  have := ofInt_inj ⟨lowest_lt_highest.le, le_refl _⟩ ⟨hlow, hhigh.le⟩ (Option.some.inj heq)
  omega

/-- The chain gives the end of the range for the first number above it. -/
theorem lowerSaturatingFpToInt_ne_of_isFirstAbove {hrep : format.Represents q}
    (hfirst : IsFirstAbove format (lowest isSigned intType) q) :
    lowerSaturatingFpToInt isSigned intType (.finite q hrep) ≠
      some (saturatingCast isSigned intType (.finite q hrep)) := by
  obtain ⟨hlow, hhigh⟩ := truncate_of_isFirstAbove hfirst
  rw [lowerSaturatingFpToInt_finite, if_pos (hfirst.1.2 isLeast_lowest.1),
    saturatingCast_of_mem hlow.le hhigh, ← ofInt_lowest]
  intro heq
  have := ofInt_inj ⟨le_refl _, lowest_lt_highest.le⟩ ⟨hlow.le, hhigh⟩ (Option.some.inj heq)
  omega

end Chain

/-- **The chain never hands on poison, and is the saturating cast but for the numbers next to an end of the range that
is itself no value of the format.** -/
theorem loweredCast_iff (x : FpValue format) :
    lowerSaturatingFpToInt isSigned intType x ≠ none ∧
      (lowerSaturatingFpToInt isSigned intType x = some (saturatingCast isSigned intType x) ↔
        ∀ q hrep, x = .finite q hrep → ¬ IsLastBelow format (highest isSigned intType) q ∧
          ¬ IsFirstAbove format (lowest isSigned intType) q) := by
  cases x with
  | nan => exact ⟨by simp [lowerSaturatingFpToInt, createSelect, FpValue.fcmpUNO], by
      simp [lowerSaturatingFpToInt, createSelect, FpValue.fcmpUNO, saturatingCast]⟩
  | inf negative =>
    have hchain : lowerSaturatingFpToInt isSigned intType (.inf negative : FpValue format) =
        some (saturatingCast isSigned intType (.inf negative : FpValue format)) := by
      cases negative <;> rfl
    rw [hchain]
    exact ⟨Option.some_ne_none _, ⟨fun _ _ _ h => (nomatch h), fun _ => rfl⟩⟩
  | finite q hrep =>
    constructor
    · rw [lowerSaturatingFpToInt_finite]
      split
      · exact Option.some_ne_none _
      · rename_i hlow
        split
        · exact Option.some_ne_none _
        · rename_i hhigh
          rw [createFPToInt_of_between hrep hlow hhigh]
          exact Option.some_ne_none _
    · constructor
      · rintro heq r hrep' h
        cases h
        exact ⟨fun hlast => lowerSaturatingFpToInt_ne_of_isLastBelow hlast heq,
          fun hfirst => lowerSaturatingFpToInt_ne_of_isFirstAbove hfirst heq⟩
      · intro h
        obtain ⟨hlast, hfirst⟩ := h q hrep rfl
        rw [lowerSaturatingFpToInt_finite]
        split
        · rename_i hmin
          rw [saturatingCast_of_le_lowest (le_lowest_of_leMin hrep hfirst hmin)]
        · rename_i hlow
          split
          · rename_i hmax
            rw [saturatingCast_of_highest_le (highest_le_of_geMax hrep hlast hmax)]
          · rename_i hhigh
            exact createFPToInt_of_between hrep hlow hhigh

/-- `float` -/
def single : BinaryFormat := ⟨24, -126, 127, by decide, by decide, by decide⟩

/-- `i32` -/
def i32 : IntegerType := ⟨32, by decide⟩

/-- The number that the code gets wrong is one of single precision. -/
theorem single_represents : single.Represents 2147483520 :=
  ⟨16777215, 7, by decide, by decide, by decide, by norm_num⟩

/-- The largest `float` below `2 ^ 31` is the integer 2147483520, and the chain makes 2147483647 of it. -/
theorem loweredCast_lastFloat :
    lowerSaturatingFpToInt true i32 (.finite 2147483520 single_represents) ≠
      some (saturatingCast true i32 (.finite 2147483520 single_represents)) := by
  decide +kernel

end Assure
