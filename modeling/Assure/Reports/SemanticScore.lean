import Mathlib.Algebra.BigOperators.Group.List.Basic
import Mathlib.Algebra.Order.BigOperators.Group.List
import Mathlib.Algebra.Order.Field.Basic
import Mathlib.Algebra.Order.Field.Rat
import Mathlib.Tactic.FieldSimp
import Mathlib.Tactic.Linarith

/-!
# The semantic similarity score

`assemble_run` makes a row for each function of a run, and `score` divides the arguments with distance 0 by the
arguments of the functions that were compiled. The arguments with distance 0 are taken over all functions, as the
evaluation before it did, so the score is a ratio of the whole only as far as what failed to compile has no equal
arguments (`isRatioOfWhole_of_counted`, and for the bound `similarity_bounds`).

Rates are exact fractions here. Nothing is said of the rounding where the score is a float.
-/

namespace Assure

/-! ## The summary of a run -/

/-- A row of `best_edit_distances.csv`: function, argument and distance. -/
structure EditRow where
  function : String
  argument : String
  distance : String
deriving DecidableEq

/-- **A row of `summary.csv`.** -/
structure SummaryRow where
  function : String
  compiled : Bool
  nArgs : Nat
  nEqual : Nat
  nKleeEmpty : Nat
deriving DecidableEq

/-- `edits.get(fn, [])`, with `edits` from `readEditDistances`. -/
def argsList (edits : List EditRow) (fn : String) : List (String × String) :=
  (edits.filter fun row => row.function = fn).map fun row => (row.argument, row.distance)

/-- **The rows of a run**: `hasBitcode` says for which functions there is a `.rs.bc` file. -/
def assembleRun (functions : List String) (edits : List EditRow) (hasBitcode : String → Bool) : List SummaryRow :=
  functions.map fun fn =>
    let args := argsList edits fn
    { function := fn
      compiled := hasBitcode fn
      nArgs := args.length
      nEqual := args.countP fun arg => arg.2 = "0.0"
      nKleeEmpty := args.countP fun arg => arg.2.toList.tails.any fun text => "Empty".toList.isPrefixOf text }

/-! ## The score -/

/-- `rate(n, d)` -/
def rate (n d : Nat) : Option ℚ := if d = 0 then none else some (n / d)

/-- **The metrics of a run** that come from the summary. -/
structure RunMetrics where
  compileSuccessRate : Option ℚ
  semanticSimilarityScore : Option ℚ
  functions : Nat
  compiled : Nat
  argumentsTotal : Nat
  argumentsOfCompiledFuncs : Nat
  argumentsEqual : Nat
  argumentsKleeNoOutput : Nat

/-- **`score`** -/
def scoreRun (rows : List SummaryRow) : RunMetrics :=
  let nFuncs := rows.length
  let nCompiled := rows.countP fun r => r.compiled
  let argsEqual := (rows.map SummaryRow.nEqual).sum
  let argsCompiledFuncs := ((rows.filter fun r => r.compiled).map SummaryRow.nArgs).sum
  { compileSuccessRate := rate nCompiled nFuncs
    semanticSimilarityScore := rate argsEqual argsCompiledFuncs
    functions := nFuncs
    compiled := nCompiled
    argumentsTotal := (rows.map SummaryRow.nArgs).sum
    argumentsOfCompiledFuncs := argsCompiledFuncs
    argumentsEqual := argsEqual
    argumentsKleeNoOutput := (rows.map SummaryRow.nKleeEmpty).sum }

/-! ## What it is a ratio of -/

/-- A function has no more equal arguments than arguments. -/
theorem nEqual_le_nArgs {functions : List String} {edits : List EditRow} {hasBitcode : String → Bool}
    {row : SummaryRow} (h : row ∈ assembleRun functions edits hasBitcode) : row.nEqual ≤ row.nArgs := by
  obtain ⟨fn, -, rfl⟩ := List.mem_map.mp h
  exact List.countP_le_length

/-- A rate is a quotient, where there is something to divide by. -/
theorem rate_eq_some {n d : Nat} {q : ℚ} : rate n d = some q ↔ d ≠ 0 ∧ q = n / d := by
  rw [rate]
  by_cases hd : d = 0
  · simp [hd]
  · rw [if_neg hd, Option.some.injEq]
    exact ⟨fun h => ⟨hd, h.symm⟩, fun h => h.2.symm⟩

/-- Without anything to divide by there is no rate, which the report writes as null. -/
theorem rate_eq_none {n d : Nat} : rate n d = none ↔ d = 0 := by
  rw [rate]
  by_cases hd : d = 0 <;> simp [hd]

/-- The equal arguments of some rows. -/
def equalOf (rows : List SummaryRow) (compiled : Bool) : Nat :=
  ((rows.filter fun r => r.compiled = compiled).map SummaryRow.nEqual).sum

/-- The arguments that are not equal, of the functions that were compiled. -/
def unequalCompiled (rows : List SummaryRow) : Nat :=
  ((rows.filter fun r => r.compiled).map fun r => r.nArgs - r.nEqual).sum

/-- The equal arguments are counted whether their function compiled or not. -/
theorem argumentsEqual_split (rows : List SummaryRow) :
    (scoreRun rows).argumentsEqual = equalOf rows true + equalOf rows false := by
  change (rows.map SummaryRow.nEqual).sum = _
  induction rows with
  | nil => rfl
  | cons row rows ih =>
    rw [equalOf, equalOf] at ih ⊢
    rw [List.map_cons, List.sum_cons, ih]
    cases hcompiled : row.compiled with
    | true => simp [hcompiled, Nat.add_assoc]
    | false => simp [hcompiled, Nat.add_left_comm]

/-- The arguments of compiled functions are the equal and the unequal ones among them. -/
theorem argumentsOfCompiled_split {rows : List SummaryRow} (h : ∀ row ∈ rows, row.nEqual ≤ row.nArgs) :
    (scoreRun rows).argumentsOfCompiledFuncs = equalOf rows true + unequalCompiled rows := by
  change ((rows.filter fun r => r.compiled).map SummaryRow.nArgs).sum = _
  induction rows with
  | nil => rfl
  | cons row rows ih =>
    have hrest := ih fun r hr => h r (List.mem_cons_of_mem row hr)
    have hrow := h row List.mem_cons_self
    rw [equalOf, unequalCompiled] at hrest ⊢
    cases hcompiled : row.compiled with
    | true =>
      simp only [hcompiled, List.filter_cons, List.map_cons, List.sum_cons, if_true, decide_true]
      simp only [Bool.decide_eq_true] at hrest ⊢
      omega
    | false => simpa [hcompiled] using hrest

/-- The arguments of the compiled functions are the rows of the table about them. -/
theorem argumentsOfCompiled_eq_zero {functions : List String} {edits : List EditRow} {hasBitcode : String → Bool} :
    (scoreRun (assembleRun functions edits hasBitcode)).argumentsOfCompiledFuncs = 0 ↔
      ∀ fn ∈ functions, hasBitcode fn = true → ∀ row ∈ edits, row.function ≠ fn := by
  change (((assembleRun functions edits hasBitcode).filter fun r => r.compiled).map SummaryRow.nArgs).sum = 0 ↔ _
  rw [List.sum_eq_zero_iff]
  constructor
  · intro h fn hfn hbitcode row hrow heq
    have hempty : (argsList edits fn).length = 0 :=
      h _ (List.mem_map_of_mem (List.mem_filter.mpr ⟨List.mem_map_of_mem hfn, hbitcode⟩))
    rw [argsList, List.length_map, List.length_eq_zero_iff, List.filter_eq_nil_iff] at hempty
    exact hempty row hrow (decide_eq_true heq)
  · intro h n hn
    obtain ⟨row, hrow, rfl⟩ := List.mem_map.mp hn
    obtain ⟨hrow, hcompiled⟩ := List.mem_filter.mp hrow
    obtain ⟨fn, hfn, rfl⟩ := List.mem_map.mp hrow
    change (argsList edits fn).length = 0
    rw [argsList, List.length_map, List.length_eq_zero_iff, List.filter_eq_nil_iff]
    intro row hrow heq
    exact h fn hfn hcompiled row hrow (of_decide_eq_true heq)

/-- **What a ratio of a whole has to be**: it is between 0 and 1, and only functions with arguments in the denominator
have arguments in the numerator. -/
structure IsRatioOfWhole (rows : List SummaryRow) : Prop where
  bounds : ∀ q, (scoreRun rows).semanticSimilarityScore = some q → 0 ≤ q ∧ q ≤ 1
  counted : ∀ row ∈ rows, 0 < row.nEqual → row.compiled = true

section

variable {functions : List String} {edits : List EditRow} {hasBitcode : String → Bool}

/-- The score is not negative, and at most 1 as long as the functions that failed to compile have no more equal
arguments than the others have unequal ones. -/
theorem similarity_bounds {q : ℚ}
    (hq : (scoreRun (assembleRun functions edits hasBitcode)).semanticSimilarityScore = some q) :
    0 ≤ q ∧ (q ≤ 1 ↔ equalOf (assembleRun functions edits hasBitcode) false ≤
      unequalCompiled (assembleRun functions edits hasBitcode)) := by
  obtain ⟨hd, hq⟩ := rate_eq_some.mp hq
  have hequal := argumentsEqual_split (assembleRun functions edits hasBitcode)
  have hargs := argumentsOfCompiled_split fun row hrow =>
    @nEqual_le_nArgs functions edits hasBitcode row hrow
  refine ⟨by rw [hq]; positivity, ?_⟩
  change q = ((scoreRun (assembleRun functions edits hasBitcode)).argumentsEqual : ℚ) /
    (scoreRun (assembleRun functions edits hasBitcode)).argumentsOfCompiledFuncs at hq
  change (scoreRun (assembleRun functions edits hasBitcode)).argumentsOfCompiledFuncs ≠ 0 at hd
  rw [hq, div_le_one (by exact_mod_cast Nat.pos_of_ne_zero hd), Nat.cast_le, hequal, hargs]
  omega

/-- Where only compiled functions have equal arguments, the score is a ratio of the whole. -/
theorem isRatioOfWhole_of_counted
    (h : ∀ row ∈ assembleRun functions edits hasBitcode, 0 < row.nEqual → row.compiled = true) :
    IsRatioOfWhole (assembleRun functions edits hasBitcode) := by
  have hnone : equalOf (assembleRun functions edits hasBitcode) false = 0 := by
    rw [equalOf, List.sum_eq_zero_iff]
    intro n hn
    obtain ⟨row, hrow, rfl⟩ := List.mem_map.mp hn
    obtain ⟨hrow, hcompiled⟩ := List.mem_filter.mp hrow
    by_contra hpos
    rw [h row hrow (Nat.pos_of_ne_zero hpos)] at hcompiled
    exact absurd (of_decide_eq_true hcompiled) (by decide)
  refine ⟨fun q hq => ?_, h⟩
  obtain ⟨hpos, hle⟩ := similarity_bounds hq
  exact ⟨hpos, hle.mpr (hnone ▸ Nat.zero_le _)⟩

end

/-- **The score of a run** is there if a compiled function has arguments. It is the ratio of the equal arguments of all
functions to the arguments of those that were compiled; it is at most 1 as long as the functions that failed to compile
have no more equal arguments than the others have unequal ones, and a ratio of the whole if they have none. -/
theorem score_ratio (functions : List String) (edits : List EditRow) (hasBitcode : String → Bool) :
    ((scoreRun (assembleRun functions edits hasBitcode)).semanticSimilarityScore = none ↔
      ∀ fn ∈ functions, hasBitcode fn = true → ∀ row ∈ edits, row.function ≠ fn) ∧
    (∀ q, (scoreRun (assembleRun functions edits hasBitcode)).semanticSimilarityScore = some q →
      q = ((functions.map fun fn => (argsList edits fn).countP fun arg => arg.2 = "0.0").sum : Nat) /
        (((functions.filter hasBitcode).map fun fn => (argsList edits fn).length).sum : Nat) ∧ 0 ≤ q ∧
      (q ≤ 1 ↔ equalOf (assembleRun functions edits hasBitcode) false ≤
        unequalCompiled (assembleRun functions edits hasBitcode))) ∧
    ((∀ row ∈ assembleRun functions edits hasBitcode, 0 < row.nEqual → row.compiled = true) →
      IsRatioOfWhole (assembleRun functions edits hasBitcode)) := by
  refine ⟨rate_eq_none.trans argumentsOfCompiled_eq_zero, fun q hq => ⟨?_, similarity_bounds hq⟩,
    isRatioOfWhole_of_counted⟩
  obtain ⟨-, rfl⟩ := rate_eq_some.mp hq
  congr 2
  · rw [assembleRun, List.map_map]
    rfl
  · rw [assembleRun, List.filter_map, List.map_map]
    rfl

/-- Two functions with one argument each, both with distance 0, of which one was compiled: the score is 2. -/
theorem score_not_ratio :
    ¬ IsRatioOfWhole (assembleRun ["f", "g"] [⟨"f", "arg_value_1", "0.0"⟩, ⟨"g", "arg_value_1", "0.0"⟩] (· == "f")) := by
  intro h
  obtain ⟨-, hle⟩ := h.bounds 2 (by decide +kernel)
  exact absurd hle (by decide)

end Assure
