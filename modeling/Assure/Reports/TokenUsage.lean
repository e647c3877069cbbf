import Assure.Library.Tally
import Mathlib.Algebra.Order.Field.Rat
import Mathlib.Algebra.BigOperators.Group.List.Lemmas
import Mathlib.Algebra.Order.BigOperators.Group.List
import Mathlib.Tactic.Ring

/-!
# Token usage

`TokenUsageTracker` keeps a record of each call of a model, with its tokens and its price, and `summarize` adds the
records up: over all of them, and by stage, kind and model. A record is priced with the built-in table and, for a
model that is not in it, with the table of the tracker; `summarize` prices the records again, with the built-in table
only. So the sums agree with one another always and with the prices of the records if those that only the tracker's
table prices cost nothing (`summarize_iff`).

That the rows of each table add up to the totals is proved without a condition, for every quantity.
The equivalence about prices is for tables and counts that are not negative. Prices are exact
fractions here.
-/

namespace Assure

open Assure.Library

/-! ## Prices -/

/-- The price of a million tokens in dollars, where it is given. -/
structure Price where
  input : Option ℚ
  output : Option ℚ
  cacheRead : Option ℚ
  cacheWrite : Option ℚ

/-- **`_DEFAULT_PRICING`** -/
def defaultPricing : List (String × Price) :=
  [("claude-opus-4-1", ⟨some 15, some 75, some (3 / 2), some (75 / 4)⟩),
    ("claude-opus-4-5", ⟨some 5, some 25, some (1 / 2), some (25 / 4)⟩),
    ("claude-opus-4-6", ⟨some 5, some 25, some (1 / 2), some (25 / 4)⟩),
    ("claude-opus-4-7", ⟨some 5, some 25, some (1 / 2), some (25 / 4)⟩),
    ("claude-opus-4-8", ⟨some 5, some 25, some (1 / 2), some (25 / 4)⟩),
    ("claude-sonnet-4-5", ⟨some 3, some 15, some (3 / 10), some (15 / 4)⟩),
    ("claude-sonnet-4-6", ⟨some 3, some 15, some (3 / 10), some (15 / 4)⟩),
    ("claude-haiku-4-5", ⟨some 1, some 5, some (1 / 10), some (5 / 4)⟩),
    ("gpt-5.4", ⟨some (5 / 2), some 15, some (1 / 4), some 0⟩),
    ("gpt-5", ⟨some (5 / 4), some 10, some (1 / 8), some 0⟩),
    ("gemini-3.5-flash", ⟨some (3 / 2), some 9, some (3 / 20), some 0⟩),
    ("gemini-3.1-pro", ⟨some 2, some 12, some (1 / 5), some 0⟩)]

/-- **`_lookupPricing`** -/
def lookupPricing (model : Option String) : Option Price :=
  match model with
  | none => none
  | some model =>
    if model = "" then none
    else
      match defaultPricing.lookup model with
      | some price => some price
      | none => (defaultPricing.find? fun entry => entry.1.toList.isPrefixOf model.toList).map Prod.snd

/-! ## Usage -/

/-- A field of an object: not there or `None`, or what `int` makes of it, `none` being an error. -/
abbrev FieldReader := String → Option (Option Int)

/-- What `completion.usage` or `completion.usage_metadata` holds; objects that count as false are left out. -/
structure UsageObject where
  field : FieldReader
  inputTokensDetails : Option FieldReader
  promptTokensDetails : Option FieldReader

/-- What a provider returns. -/
structure Completion where
  usage : Option UsageObject
  usageMetadata : Option UsageObject

/-- **The token counts** of a call. -/
@[ext]
structure TokenCounts where
  inputTokens : Int
  outputTokens : Int
  cacheReadInputTokens : Int
  cacheCreationInputTokens : Int
deriving DecidableEq

/-- **`_readInt`** -/
def readInt (obj : FieldReader) (names : List String) : Int :=
  (names.findSome? fun name => (obj name).join).getD 0

/-- **`_extractUsage`** -/
def extractUsage (completion : Completion) : Option TokenCounts :=
  (completion.usage.or completion.usageMetadata).bind fun usage =>
    let inputTokens := readInt usage.field ["input_tokens", "prompt_tokens", "prompt_token_count"]
    let outputTokens := readInt usage.field ["output_tokens", "completion_tokens", "candidates_token_count"]
    let cacheRead := readInt usage.field ["cache_read_input_tokens", "cached_content_token_count"]
    let cacheCreate := readInt usage.field ["cache_creation_input_tokens"]
    let cacheRead :=
      if cacheRead = 0 then
        match usage.inputTokensDetails.or usage.promptTokensDetails with
        | some details => readInt details ["cached_tokens"]
        | none => cacheRead
      else cacheRead
    if inputTokens = 0 ∧ outputTokens = 0 ∧ cacheRead = 0 ∧ cacheCreate = 0 then none
    else some ⟨inputTokens, outputTokens, cacheRead, cacheCreate⟩

/-- **`_estimateCostUsd`** -/
def estimateCostUsd (usage : TokenCounts) (pricing : Option Price) : ℚ :=
  match pricing with
  | none => 0
  | some price =>
    usage.inputTokens / 1000000 * price.input.getD 0 + usage.outputTokens / 1000000 * price.output.getD 0 +
      usage.cacheReadInputTokens / 1000000 * price.cacheRead.getD 0 +
        usage.cacheCreationInputTokens / 1000000 * price.cacheWrite.getD 0

/-! ## Records -/

/-- **A record** of a call. -/
structure UsageEntry where
  ts : String
  name : String
  kind : String
  stage : String
  model : String
  usage : TokenCounts
  estimatedCostUsd : ℚ

/-- A call of `record`. -/
structure UsageCall where
  ts : String
  name : Option String
  kind : Option String
  stage : Option String
  model : Option String
  completion : Completion

/-- `self._pricing.get(model)`: the prices given to the tracker go before the built-in ones. -/
def trackerPrice (overrides : List (String × Price)) (model : Option String) : Option Price :=
  model.bind fun model => (overrides.lookup model).or (defaultPricing.lookup model)

/-- The price with which `record` prices a call. -/
def callPricing (overrides : List (String × Price)) (model : Option String) : Option Price :=
  (lookupPricing model).or (trackerPrice overrides model)

/-- **`record`** -/
def recordUsage (overrides : List (String × Price)) (call : UsageCall) : Option UsageEntry :=
  (extractUsage call.completion).map fun usage =>
    { ts := call.ts
      name := call.name.getD ""
      kind := call.kind.getD ""
      stage := call.stage.getD ""
      model := call.model.getD ""
      usage
      estimatedCostUsd := estimateCostUsd usage (callPricing overrides call.model) }

/-- The records of a tracker after a row of calls. -/
def recordAll (overrides : List (String × Price)) (calls : List UsageCall) : List UsageEntry :=
  calls.filterMap (recordUsage overrides)

/-! ## The summary -/

/-- **A row of a summary.** -/
@[ext]
structure UsageBucket where
  calls : Nat
  inputTokens : Int
  outputTokens : Int
  cacheReadInputTokens : Int
  cacheCreationInputTokens : Int
  estimatedCostUsd : ℚ

namespace UsageBucket

instance : Zero UsageBucket := ⟨⟨0, 0, 0, 0, 0, 0⟩⟩

/-- One row added to another. -/
instance : Add UsageBucket where
  add b c :=
    { calls := b.calls + c.calls
      inputTokens := b.inputTokens + c.inputTokens
      outputTokens := b.outputTokens + c.outputTokens
      cacheReadInputTokens := b.cacheReadInputTokens + c.cacheReadInputTokens
      cacheCreationInputTokens := b.cacheCreationInputTokens + c.cacheCreationInputTokens
      estimatedCostUsd := b.estimatedCostUsd + c.estimatedCostUsd }

/-- It costs nothing. -/
@[simp] theorem calls_zero : (0 : UsageBucket).calls = 0 := rfl
@[simp] theorem inputTokens_zero : (0 : UsageBucket).inputTokens = 0 := rfl
@[simp] theorem outputTokens_zero : (0 : UsageBucket).outputTokens = 0 := rfl
@[simp] theorem cacheReadInputTokens_zero : (0 : UsageBucket).cacheReadInputTokens = 0 := rfl
@[simp] theorem cacheCreationInputTokens_zero : (0 : UsageBucket).cacheCreationInputTokens = 0 := rfl
@[simp] theorem estimatedCostUsd_zero : (0 : UsageBucket).estimatedCostUsd = 0 := rfl

section

variable (b c : UsageBucket)

/-- They add up their reads of the cache. -/
@[simp] theorem calls_add : (b + c).calls = b.calls + c.calls := rfl
@[simp] theorem inputTokens_add : (b + c).inputTokens = b.inputTokens + c.inputTokens := rfl
@[simp] theorem outputTokens_add : (b + c).outputTokens = b.outputTokens + c.outputTokens := rfl
@[simp] theorem cacheReadInputTokens_add :
    (b + c).cacheReadInputTokens = b.cacheReadInputTokens + c.cacheReadInputTokens := rfl
/-- They add up their writes of the cache. -/
@[simp] theorem cacheCreationInputTokens_add :
    (b + c).cacheCreationInputTokens = b.cacheCreationInputTokens + c.cacheCreationInputTokens := rfl
/-- They add up their costs. -/
@[simp] theorem estimatedCostUsd_add : (b + c).estimatedCostUsd = b.estimatedCostUsd + c.estimatedCostUsd := rfl

end

instance : AddCommMonoid UsageBucket where
  add_assoc a b c := by ext <;> simp [add_assoc]
  zero_add a := by ext <;> simp
  add_zero a := by ext <;> simp
  add_comm a b := by ext <;> simp [add_comm]
  nsmul := nsmulRec

end UsageBucket

/-- What a record adds to the rows it belongs to. -/
def UsageEntry.bucket (entry : UsageEntry) : UsageBucket where
  calls := 1
  inputTokens := entry.usage.inputTokens
  outputTokens := entry.usage.outputTokens
  cacheReadInputTokens := entry.usage.cacheReadInputTokens
  cacheCreationInputTokens := entry.usage.cacheCreationInputTokens
  estimatedCostUsd := estimateCostUsd entry.usage (lookupPricing (some entry.model))

/-- `text or default` -/
def orDefault (text default : String) : String := if text = "" then default else text

/-- `retries["perf_retry_calls_by_attempt"][attempt]` -/
structure AttemptBucket where
  calls : Nat
  costUsd : ℚ

/-- **The retries** among the calls. -/
structure RetryCounts where
  compileRetryCalls : Nat
  structRetryCalls : Nat
  perfRetryCallsTotal : Nat
  perfRetryCallsByAttempt : List (String × AttemptBucket)
  compileRetryCostUsd : ℚ
  structRetryCostUsd : ℚ
  perfRetryCostUsd : ℚ

/-- One more call in the row of an attempt. -/
def countAttempt (attempt : String) (cost : ℚ) : List (String × AttemptBucket) → List (String × AttemptBucket)
  | [] => [(attempt, ⟨0 + 1, 0 + cost⟩)]
  | (a, row) :: rows =>
    if a = attempt then (a, ⟨row.calls + 1, row.costUsd + cost⟩) :: rows else (a, row) :: countAttempt attempt cost rows

/-- One record of the loop over the retries. -/
def countRetry (retries : RetryCounts) (entry : UsageEntry) : RetryCounts :=
  let cost := estimateCostUsd entry.usage (lookupPricing (some entry.model))
  if entry.kind = "function_retry" then
    { retries with
      compileRetryCalls := retries.compileRetryCalls + 1
      compileRetryCostUsd := retries.compileRetryCostUsd + cost }
  else if entry.kind = "struct_retry" then
    { retries with
      structRetryCalls := retries.structRetryCalls + 1
      structRetryCostUsd := retries.structRetryCostUsd + cost }
  else if "perf_retry_attempt_".toList.isPrefixOf entry.kind.toList then
    { retries with
      perfRetryCallsTotal := retries.perfRetryCallsTotal + 1
      perfRetryCostUsd := retries.perfRetryCostUsd + cost
      perfRetryCallsByAttempt := countAttempt
        (String.ofList (entry.kind.toList.drop "perf_retry_attempt_".toList.length)) cost
        retries.perfRetryCallsByAttempt }
  else retries

/-- **The summary of a run.** -/
structure UsageSummary where
  totalPriceUsd : ℚ
  totalCalls : Nat
  totals : UsageBucket
  byStage : List (String × UsageBucket)
  byKind : List (String × UsageBucket)
  byModel : List (String × UsageBucket)
  retries : RetryCounts
  recordCount : Nat

/-- **`summarize`** -/
def summarize (records : List UsageEntry) : UsageSummary :=
  let totals := records.foldl (fun totals entry => totals + entry.bucket) 0
  { totalPriceUsd := totals.estimatedCostUsd
    totalCalls := totals.calls
    totals
    byStage := tally (fun entry => orDefault entry.stage "(none)") UsageEntry.bucket records
    byKind := tally (fun entry => orDefault entry.kind "(none)") UsageEntry.bucket records
    byModel := tally (fun entry => orDefault entry.model "(unknown)") UsageEntry.bucket records
    retries := records.foldl countRetry ⟨0, 0, 0, [], 0, 0, 0⟩
    recordCount := records.length }

/-! ## The sums -/

/-- **The rows of a table add up to the totals**, in every quantity. -/
structure AddsUp (totals : UsageBucket) (rows : List (String × UsageBucket)) : Prop where
  calls : (rows.map fun row => row.2.calls).sum = totals.calls
  inputTokens : (rows.map fun row => row.2.inputTokens).sum = totals.inputTokens
  outputTokens : (rows.map fun row => row.2.outputTokens).sum = totals.outputTokens
  cacheReadInputTokens : (rows.map fun row => row.2.cacheReadInputTokens).sum = totals.cacheReadInputTokens
  cacheCreationInputTokens :
    (rows.map fun row => row.2.cacheCreationInputTokens).sum = totals.cacheCreationInputTokens
  estimatedCostUsd : (rows.map fun row => row.2.estimatedCostUsd).sum = totals.estimatedCostUsd

/-- A quantity of a sum of rows. -/
theorem sum_quantity {β : Type} [AddCommMonoid β] {q : UsageBucket → β} (hzero : q 0 = 0)
    (hadd : ∀ b c, q (b + c) = q b + q c) (rows : List (String × UsageBucket)) :
    (rows.map fun row => q row.2).sum = q (rows.map Prod.snd).sum := by
  induction rows with
  | nil => exact hzero.symm
  | cons row rows ih => rw [List.map_cons, List.sum_cons, ih, List.map_cons, List.sum_cons, hadd]

/-- Rows whose sum is the total add up to it in every quantity. -/
theorem addsUp_of_sum {totals : UsageBucket} {rows : List (String × UsageBucket)}
    (h : (rows.map Prod.snd).sum = totals) : AddsUp totals rows where
  calls := h ▸ sum_quantity rfl UsageBucket.calls_add rows
  inputTokens := h ▸ sum_quantity rfl UsageBucket.inputTokens_add rows
  outputTokens := h ▸ sum_quantity rfl UsageBucket.outputTokens_add rows
  cacheReadInputTokens := h ▸ sum_quantity rfl UsageBucket.cacheReadInputTokens_add rows
  cacheCreationInputTokens := h ▸ sum_quantity rfl UsageBucket.cacheCreationInputTokens_add rows
  estimatedCostUsd := h ▸ sum_quantity rfl UsageBucket.estimatedCostUsd_add rows

/-- A table has one row for each stage, kind or model. -/
theorem summarize_keys (records : List UsageEntry) : ((summarize records).byStage.map Prod.fst).Nodup ∧
    ((summarize records).byKind.map Prod.fst).Nodup ∧ ((summarize records).byModel.map Prod.fst).Nodup :=
  ⟨nodup_keys_tally _ _ _, nodup_keys_tally _ _ _, nodup_keys_tally _ _ _⟩

/-- The total of a summary is the sum over all records, whichever rows they were put in. -/
theorem totals_eq (records : List UsageEntry) :
    (summarize records).totals = (records.map UsageEntry.bucket).sum := by
  rw [List.sum_eq_foldl, List.foldl_map]
  rfl

/-- The total of calls is the number of records. -/
theorem totalCalls_eq (records : List UsageEntry) :
    (summarize records).totalCalls = (summarize records).recordCount := by
  refine (congrArg UsageBucket.calls (totals_eq records)).trans ?_
  change (records.map UsageEntry.bucket).sum.calls = records.length
  induction records with
  | nil => rfl
  | cons entry records ih =>
    rw [List.map_cons, List.sum_cons, UsageBucket.calls_add, ih]
    exact Nat.add_comm _ _

/-- The total price is what the records cost by the built-in prices. -/
theorem totalPrice_eq (records : List UsageEntry) :
    (summarize records).totalPriceUsd =
      (records.map fun entry => estimateCostUsd entry.usage (lookupPricing (some entry.model))).sum := by
  refine (congrArg UsageBucket.estimatedCostUsd (totals_eq records)).trans ?_
  induction records with
  | nil => rfl
  | cons entry records ih =>
    rw [List.map_cons, List.sum_cons, UsageBucket.estimatedCostUsd_add, ih, List.map_cons, List.sum_cons]
    rfl

/-- **The retries of all attempts** are the retries. -/
theorem attempts_addUp (records : List UsageEntry) :
    ((summarize records).retries.perfRetryCallsByAttempt.map fun row => row.2.calls).sum =
        (summarize records).retries.perfRetryCallsTotal ∧
      ((summarize records).retries.perfRetryCallsByAttempt.map fun row => row.2.costUsd).sum =
        (summarize records).retries.perfRetryCostUsd := by
  have hcount : ∀ attempt cost (rows : List (String × AttemptBucket)),
      ((countAttempt attempt cost rows).map fun row => row.2.calls).sum = (rows.map fun row => row.2.calls).sum + 1 ∧
        ((countAttempt attempt cost rows).map fun row => row.2.costUsd).sum =
          (rows.map fun row => row.2.costUsd).sum + cost := by
    intro attempt cost rows
    induction rows with
    | nil => simp [countAttempt]
    | cons row rows ih =>
      rw [countAttempt]
      split
      · simp only [List.map_cons, List.sum_cons]
        exact ⟨Nat.add_right_comm _ _ _, add_right_comm _ _ _⟩
      · simp only [List.map_cons, List.sum_cons, ih, add_assoc, and_self]
  have hfold : ∀ retries : RetryCounts,
      (retries.perfRetryCallsByAttempt.map fun row => row.2.calls).sum = retries.perfRetryCallsTotal →
      (retries.perfRetryCallsByAttempt.map fun row => row.2.costUsd).sum = retries.perfRetryCostUsd →
      ((records.foldl countRetry retries).perfRetryCallsByAttempt.map fun row => row.2.calls).sum =
          (records.foldl countRetry retries).perfRetryCallsTotal ∧
        ((records.foldl countRetry retries).perfRetryCallsByAttempt.map fun row => row.2.costUsd).sum =
          (records.foldl countRetry retries).perfRetryCostUsd := by
    induction records with
    | nil => exact fun retries hcalls hcost => ⟨hcalls, hcost⟩
    | cons entry records ih =>
      intro retries hcalls hcost
      have hstep : ((countRetry retries entry).perfRetryCallsByAttempt.map fun row => row.2.calls).sum =
          (countRetry retries entry).perfRetryCallsTotal ∧
            ((countRetry retries entry).perfRetryCallsByAttempt.map fun row => row.2.costUsd).sum =
              (countRetry retries entry).perfRetryCostUsd := by
        rw [countRetry]
        split
        · exact ⟨hcalls, hcost⟩
        · split
          · exact ⟨hcalls, hcost⟩
          · split
            · rw [(hcount _ _ _).1, (hcount _ _ _).2, hcalls, hcost]
              exact ⟨rfl, rfl⟩
            · exact ⟨hcalls, hcost⟩
      exact ih _ hstep.1 hstep.2
  exact hfold _ rfl rfl

/-! ## When the prices agree -/

/-- **A consistent summary**: the tables add up to the totals, and the total price is what the records say. -/
structure ConsistentUsage (records : List UsageEntry) : Prop where
  byStage : AddsUp (summarize records).totals (summarize records).byStage
  byKind : AddsUp (summarize records).totals (summarize records).byKind
  byModel : AddsUp (summarize records).totals (summarize records).byModel
  price : (summarize records).totalPriceUsd = (records.map UsageEntry.estimatedCostUsd).sum

/-- What the calls cost whose model only the table of the tracker has. -/
def unlistedCosts (overrides : List (String × Price)) (calls : List UsageCall) : List ℚ :=
  calls.filterMap fun call =>
    if (lookupPricing call.model).isNone then
      (extractUsage call.completion).map fun usage => estimateCostUsd usage (trackerPrice overrides call.model)
    else none

/-- The built-in price does not depend on whether a model is `None` or the empty text. -/
theorem lookupPricing_getD (model : Option String) : lookupPricing (some (model.getD "")) = lookupPricing model := by
  cases model <;> rfl

/-- What a record costs beyond the built-in price. -/
theorem recordAll_costs (overrides : List (String × Price)) (calls : List UsageCall) :
    ((recordAll overrides calls).map UsageEntry.estimatedCostUsd).sum =
      ((recordAll overrides calls).map fun entry =>
        estimateCostUsd entry.usage (lookupPricing (some entry.model))).sum + (unlistedCosts overrides calls).sum := by
  induction calls with
  | nil => exact (add_zero _).symm
  | cons call calls ih =>
    rw [recordAll, unlistedCosts, List.filterMap_cons, List.filterMap_cons, recordUsage]
    rw [recordAll, unlistedCosts] at ih
    cases extractUsage call.completion with
    | none =>
      rw [Option.map_none, Option.map_none, ite_self]
      exact ih
    | some usage =>
      simp only [Option.map_some, List.map_cons, List.sum_cons, ih, lookupPricing_getD, callPricing]
      cases lookupPricing call.model with
      | none =>
        simp only [Option.none_or, Option.isNone_none, if_true, List.sum_cons, estimateCostUsd]
        ring
      | some price =>
        simp only [Option.some_or, Option.isNone_some, Bool.false_eq_true, if_false]
        ring

/-- **When a summary is consistent**: the tables by stage, kind and model add up to the totals, and the total price is
what the records say, exactly if the calls that only the tracker's own table prices cost nothing together. -/
theorem summarize_iff (overrides : List (String × Price)) (calls : List UsageCall) :
    ConsistentUsage (recordAll overrides calls) ↔ (unlistedCosts overrides calls).sum = 0 := by
  have hprice : (summarize (recordAll overrides calls)).totalPriceUsd =
      ((recordAll overrides calls).map UsageEntry.estimatedCostUsd).sum ↔ (unlistedCosts overrides calls).sum = 0 := by
    rw [totalPrice_eq, recordAll_costs]
    exact left_eq_add
  refine ⟨fun h => hprice.mp h.price, fun h => ⟨?_, ?_, ?_, hprice.mpr h⟩⟩
  all_goals exact addsUp_of_sum ((sum_tally _ _ _).trans (totals_eq _).symm)

/-- With prices that are not negative, each of these calls costs nothing. -/
theorem unlistedCosts_sum_iff {overrides : List (String × Price)} {calls : List UsageCall}
    (h : ∀ cost ∈ unlistedCosts overrides calls, 0 ≤ cost) :
    (unlistedCosts overrides calls).sum = 0 ↔ ∀ cost ∈ unlistedCosts overrides calls, cost = 0 :=
  ⟨fun hsum _ hcost => List.all_zero_of_le_zero_le_of_sum_eq_zero h hsum hcost,
    fun hzero => List.sum_eq_zero hzero⟩

/-- A million tokens of a model that only the tracker's table has. -/
def millionTokens : UsageCall where
  ts := ""
  name := none
  kind := some "function"
  stage := some "translate"
  model := some "local-model"
  completion :=
    { usage := some ⟨fun name => if name = "input_tokens" then some (some 1000000) else none, none, none⟩
      usageMetadata := none }

/-- The record says one dollar and the summary nothing. -/
theorem summarize_overrides_not :
    ¬ ConsistentUsage (recordAll [("local-model", ⟨some 1, none, none, none⟩)] [millionTokens]) := by
  intro h
  exact absurd h.price (by decide +kernel)

end Assure
