import Assure.Cost.Flags
import Mathlib.Data.Nat.Bitwise
import Mathlib.Order.Bounds.Basic

/-!
# Which functions can be rustified

`runFuncBasedAnalysis` goes over the functions of a module once and scores each: one whose score has no bit for an
indirect call, a library call, a struct argument or a call of a function that is not rustified yet is rustified. That
is meant to be the least set in which a function is when all it calls in the module is; the loop that would sweep
until nothing changes is switched off. One sweep finds that set, and its scores, exactly if a function whose callees
can all be rustified is visited after them (`runFuncBasedAnalysis_iff`).

Both directions are proved for every module and visiting order. That a function is rustified says
that its score has none of the bits; what is done with the score later is left out.
-/

namespace Assure

open Assure.Library

/-! ## Scores -/

/-- **`calculateScore`** from what there is: the bits are `STRUCT`, `INTCALL`, `LIBCCALL`, `LIBCALL` and `INDCALL`. -/
def scoreBits (hasStruct hasInternal hasLibc hasLibrary hasIndirect : Bool) : Nat :=
  ((((0 ||| (if hasStruct then 1 <<< 5 else 0)) ||| (if hasInternal then 1 <<< 1 else 0)) |||
    (if hasLibc then 1 <<< 2 else 0)) ||| (if hasLibrary then 1 <<< 3 else 0)) ||| (if hasIndirect then 1 <<< 4 else 0)

/-- **`calculateScore`** -/
def FunctionCost.calculateScore (cost : FunctionCost) : Nat :=
  scoreBits cost.hasStructArg (cost.internalCallInsts != 0) (cost.libcCallInsts != 0) (cost.libraryCallInsts != 0)
    (cost.indCallInsts != 0)

/-- **No bit is set that keeps a function from being rustified.** -/
def isRustified (score : Nat) : Bool := score &&& (1 <<< 4 ||| 1 <<< 1 ||| 1 <<< 3 ||| 1 <<< 5) = 0

/-- A function is rustified exactly if no bit but that of the calls into libc is set. -/
theorem isRustified_scoreBits : ∀ hasStruct hasInternal hasLibc hasLibrary hasIndirect : Bool,
    isRustified (scoreBits hasStruct hasInternal hasLibc hasLibrary hasIndirect) =
      (!hasStruct && !hasInternal && !hasLibrary && !hasIndirect) := by
  decide

/-- The score shows whether there is an internal call: the bit is its own. -/
theorem scoreBits_internal : ∀ hasStruct hasInternal hasInternal' hasLibc hasLibrary hasIndirect : Bool,
    scoreBits hasStruct hasInternal hasLibc hasLibrary hasIndirect =
      scoreBits hasStruct hasInternal' hasLibc hasLibrary hasIndirect ↔ hasInternal = hasInternal' := by
  decide

section

variable {φ σ : Type} [DecidableEq φ] [DecidableEq σ] [Fintype σ] (M : IrModule φ σ)

/-! ## The sweep -/

/-- **An order of the module's functions**, with an order of the values of each instruction. -/
structure VisitOrder (M : IrModule φ σ) where
  funcs : List φ
  nodup : funcs.Nodup
  body : φ → List (OrderedInst φ σ)
  orders : ∀ f, Orders (M.body f) (body f)

/-- What the sweep has found: `scores` are those of `funcCostMap`. -/
structure CostSweep (φ : Type) where
  rustifiedFuncs : Finset φ := ∅
  easyFuncs : Finset φ := ∅
  funcCostMap : φ → Option FunctionCost := fun _ => none
  complexFuncs : Nat := 0
  stringFuncs : Nat := 0
  totalFuncs : Nat := 0

/-- One function in the sweep. -/
def visitFunc (body : φ → List (OrderedInst φ σ)) (sweep : CostSweep φ) (func : φ) : Option (CostSweep φ) :=
  (analyze M sweep.rustifiedFuncs (M.args func) (body func)).map fun cost =>
    { rustifiedFuncs :=
        if isRustified cost.calculateScore then insert func sweep.rustifiedFuncs else sweep.rustifiedFuncs
      easyFuncs := if cost.calculateScore < 16 then insert func sweep.easyFuncs else sweep.easyFuncs
      funcCostMap := Function.update sweep.funcCostMap func (some cost)
      complexFuncs := sweep.complexFuncs + if cost.isComplex then 1 else 0
      stringFuncs := sweep.stringFuncs + if cost.isStringRelated then 1 else 0
      totalFuncs := sweep.totalFuncs + 1 }

variable {M} in
/-- **`runFuncBasedAnalysis`**: one sweep, as the loop ends after the first. -/
def runFuncBasedAnalysis (visits : VisitOrder M) : Option (CostSweep φ) :=
  visits.funcs.foldlM (visitFunc M visits.body) {}

/-! ## The least set -/

/-- A struct is the base type of an argument. -/
def HasStructArg (f : φ) : Prop := ∃ arg ∈ M.args f, isStructTy (getBaseType arg) = true

/-- Such a call is among the instructions. -/
def HasCall (f : φ) (target : CallTarget φ) : Prop := ∃ args, .call target args ∈ M.body f

/-- A call of a function of the module. -/
def InternalCall (f g : φ) : Prop := HasCall M f (.direct (some g)) ∧ M.isDeclaration g = false

/-- A call of a library function. -/
def LibraryCall (isLibc : Bool) (f : φ) : Prop :=
  ∃ g, HasCall M f (.direct (some g)) ∧ M.isDeclaration g = true ∧ M.libcFunctionStrs.contains (M.name g) = isLibc

/-- **A function that nothing but its callees keeps from being rustified.** -/
def IsSimpleFunc (f : φ) : Prop := ¬ HasStructArg M f ∧ ¬ LibraryCall M false f ∧ ¬ HasCall M f .indirect

/-- **Closed sets**: a simple function is in the set when all its callees are. -/
def RustifyClosed (funcs : List φ) (S : Set φ) : Prop :=
  ∀ f ∈ funcs, IsSimpleFunc M f → (∀ g, InternalCall M f g → g ∈ S) → f ∈ S

/-- **A function can be rustified**: it is simple, and so are the functions that it calls, all the way down. -/
inductive CanRustify (funcs : List φ) : φ → Prop
  | intro {f : φ} (hf : f ∈ funcs) (hsimple : IsSimpleFunc M f)
    (hcallees : ∀ g, InternalCall M f g → CanRustify funcs g) : CanRustify funcs f

omit [DecidableEq φ] [DecidableEq σ] [Fintype σ] in
/-- The functions that can be rustified are the least set that is closed under adding a simple
function whose callees are all in it. -/
theorem isLeast_canRustify (funcs : List φ) : IsLeast {S | RustifyClosed M funcs S} {f | CanRustify M funcs f} := by
  constructor
  · exact fun f hf hsimple hcallees => .intro hf hsimple hcallees
  · intro S hS f hf
    induction hf with
    | intro hf hsimple _ ih => exact hS _ hf hsimple ih

open scoped Classical in
/-- **The score of a function**, where a set of functions is rustified. -/
noncomputable def scoreIn (S : Set φ) (f : φ) : Nat :=
  scoreBits (decide (HasStructArg M f)) (decide (∃ g, InternalCall M f g ∧ g ∉ S)) (decide (LibraryCall M true f))
    (decide (LibraryCall M false f)) (decide (HasCall M f .indirect))

/-! ## Calls found -/

/-- A call that is kept in `internalCallInsts`. -/
def isInternalInst (rustifiedFuncs : Finset φ) : IrInst φ σ → Bool
  | .call (.direct (some callee)) _ => !M.isDeclaration callee && decide (callee ∉ rustifiedFuncs)
  | _ => false

/-- A call that is kept in `libcCallInsts` or `libraryCallInsts`. -/
def isLibraryInst (isLibc : Bool) : IrInst φ σ → Bool
  | .call (.direct (some callee)) _ =>
    M.isDeclaration callee && (M.libcFunctionStrs.contains (M.name callee) == isLibc)
  | _ => false

/-- A call that is kept in `indCallInsts`. -/
def isIndirectInst : IrInst φ σ → Bool
  | .call .indirect _ => true
  | _ => false

/-- **What instructions add to the calls of each kind.** -/
structure CallsRun (M : IrModule φ σ) (rustifiedFuncs : Finset φ) (insts : List (IrInst φ σ))
    (cost cost' : FunctionCost) : Prop where
  structArg : cost'.hasStructArg = cost.hasStructArg
  internal : cost'.internalCallInsts = cost.internalCallInsts + insts.countP (isInternalInst M rustifiedFuncs)
  libc : cost'.libcCallInsts = cost.libcCallInsts + insts.countP (isLibraryInst M true)
  library : cost'.libraryCallInsts = cost.libraryCallInsts + insts.countP (isLibraryInst M false)
  indirect : cost'.indCallInsts = cost.indCallInsts + insts.countP isIndirectInst

variable {M} {rustifiedFuncs : Finset φ}

omit [DecidableEq σ] [Fintype σ] in
/-- No instructions add no calls. -/
theorem CallsRun.refl (cost : FunctionCost) : CallsRun M rustifiedFuncs [] cost cost := ⟨rfl, rfl, rfl, rfl, rfl⟩

omit [DecidableEq σ] [Fintype σ] in
/-- Instructions followed by others add the calls of both. -/
theorem CallsRun.trans {insts insts' : List (IrInst φ σ)} {cost cost' cost'' : FunctionCost}
    (h : CallsRun M rustifiedFuncs insts cost cost') (h' : CallsRun M rustifiedFuncs insts' cost' cost'') :
    CallsRun M rustifiedFuncs (insts ++ insts') cost cost'' where
  structArg := h'.structArg.trans h.structArg
  internal := by rw [h'.internal, h.internal, List.countP_append, Nat.add_assoc]
  libc := by rw [h'.libc, h.libc, List.countP_append, Nat.add_assoc]
  library := by rw [h'.library, h.library, List.countP_append, Nat.add_assoc]
  indirect := by rw [h'.indirect, h.indirect, List.countP_append, Nat.add_assoc]

omit [Fintype σ] in
/-- Everything one instruction adds to the counts of calls. -/
theorem analyzeInst_calls (cost : FunctionCost) (inst : OrderedInst φ σ) :
    CallsRun M rustifiedFuncs [inst.inst] cost (analyzeInst M rustifiedFuncs cost inst) := by
  obtain ⟨inst, values, hperm⟩ := inst
  have hvalues : CallsRun M rustifiedFuncs [] cost (values.foldl analyzeValue cost) := by
    clear hperm
    induction values generalizing cost with
    | nil => exact .refl cost
    | cons value values ih =>
      obtain ⟨hstruct, hinternal, hlibc, hlibrary, hindirect⟩ := ih (analyzeValue cost value)
      exact ⟨hstruct, hinternal, hlibc, hlibrary, hindirect⟩
  show CallsRun M rustifiedFuncs ([] ++ [inst]) _ _
  refine hvalues.trans ?_
  unfold analyzeInst
  dsimp only
  generalize values.foldl analyzeValue cost = cost'
  cases inst with
  | call target args =>
    dsimp only
    cases target with
    | indirect => constructor <;> simp [analyzeCall, isInternalInst, isLibraryInst, isIndirectInst]
    | direct callee =>
      cases callee with
      | none => constructor <;> simp [analyzeCall, isInternalInst, isLibraryInst, isIndirectInst]
      | some callee =>
        dsimp only [analyzeCall]
        by_cases hdecl : M.isDeclaration callee = true
        · by_cases hlibc : M.name callee ∈ M.libcFunctionStrs
          · rw [if_neg (not_not.mpr hdecl), if_neg (not_not.mpr (List.contains_iff_mem.mpr hlibc))]
            constructor <;> simp [isInternalInst, isLibraryInst, isIndirectInst, hdecl, hlibc]
          · rw [if_neg (not_not.mpr hdecl), if_pos (mt List.contains_iff_mem.mp hlibc)]
            constructor <;> simp [isInternalInst, isLibraryInst, isIndirectInst, hdecl, hlibc]
        · rw [if_pos hdecl]
          by_cases hin : callee ∈ rustifiedFuncs
          · rw [if_neg (not_not.mpr hin)]
            constructor <;> simp [isInternalInst, isLibraryInst, isIndirectInst, hdecl, hin]
          · rw [if_pos hin]
            constructor <;> simp [isInternalInst, isLibraryInst, isIndirectInst, hdecl, hin]
  | gep gepPtrType indices =>
    dsimp only [analyzeGepInst]
    split
    · constructor <;> simp [isInternalInst, isLibraryInst, isIndirectInst]
    · split <;> constructor <;> simp [isInternalInst, isLibraryInst, isIndirectInst]
  | _ => constructor <;> simp [isInternalInst, isLibraryInst, isIndirectInst]

variable (M rustifiedFuncs) in
omit [Fintype σ] in
/-- Everything the instructions add, by induction on the body. -/
theorem analyzeInsts_calls (cost : FunctionCost) (body : List (OrderedInst φ σ)) :
    CallsRun M rustifiedFuncs (body.map (·.inst)) cost (body.foldl (analyzeInst M rustifiedFuncs) cost) := by
  induction body generalizing cost with
  | nil => exact .refl cost
  | cons inst body ih => exact (analyzeInst_calls cost inst).trans (ih _)

omit [DecidableEq σ] [Fintype σ] in
/-- An internal call is counted exactly if the function calls one of the module that is not
rustified yet. -/
theorem countP_internal {f : φ} :
    ((M.body f).countP (isInternalInst M rustifiedFuncs) != 0) = true ↔ ∃ g, InternalCall M f g ∧
      g ∉ rustifiedFuncs := by
  rw [bne_iff_ne, ← Nat.pos_iff_ne_zero, List.countP_pos_iff]
  constructor
  · rintro ⟨inst, hinst, hp⟩
    cases inst with
    | call target args =>
      cases target with
      | indirect => cases hp
      | direct callee =>
        cases callee with
        | none => cases hp
        | some g =>
          obtain ⟨hdecl, hout⟩ := Bool.and_eq_true_iff.mp hp
          exact ⟨g, ⟨⟨args, hinst⟩, by simpa using hdecl⟩, of_decide_eq_true hout⟩
    | _ => cases hp
  · rintro ⟨g, ⟨⟨args, hinst⟩, hdecl⟩, hout⟩
    refine ⟨_, hinst, ?_⟩
    simp [isInternalInst, hdecl, hout]

omit [DecidableEq φ] [DecidableEq σ] [Fintype σ] in
/-- A call of a library is counted exactly if there is one of the kind. -/
theorem countP_library {f : φ} {isLibc : Bool} :
    ((M.body f).countP (isLibraryInst M isLibc) != 0) = true ↔ LibraryCall M isLibc f := by
  rw [bne_iff_ne, ← Nat.pos_iff_ne_zero, List.countP_pos_iff]
  constructor
  · rintro ⟨inst, hinst, hp⟩
    cases inst with
    | call target args =>
      cases target with
      | indirect => cases hp
      | direct callee =>
        cases callee with
        | none => cases hp
        | some g =>
          obtain ⟨hdecl, hlibc⟩ := Bool.and_eq_true_iff.mp hp
          exact ⟨g, ⟨args, hinst⟩, hdecl, beq_iff_eq.mp hlibc⟩
    | _ => cases hp
  · rintro ⟨g, ⟨args, hinst⟩, hdecl, hlibc⟩
    refine ⟨_, hinst, ?_⟩
    simp only [isLibraryInst, hdecl, hlibc, Bool.true_and, beq_self_eq_true]

omit [DecidableEq φ] [DecidableEq σ] [Fintype σ] in
/-- An indirect call is counted exactly if there is one. -/
theorem countP_indirect {f : φ} : ((M.body f).countP isIndirectInst != 0) = true ↔ HasCall M f .indirect := by
  rw [bne_iff_ne, ← Nat.pos_iff_ne_zero, List.countP_pos_iff]
  constructor
  · rintro ⟨inst, hinst, hp⟩
    cases inst with
    | call target args =>
      cases target with
      | indirect => exact ⟨args, hinst⟩
      | direct callee => cases hp
    | _ => cases hp
  · rintro ⟨args, hinst⟩
    exact ⟨_, hinst, rfl⟩

/-- **The score of a function**, where its callees are rustified as in a set. -/
theorem analyze_score {f : φ} {body : List (OrderedInst φ σ)} (hbody : Orders (M.body f) body) {cost : FunctionCost}
    (h : analyze M rustifiedFuncs (M.args f) body = some cost) {S : Set φ}
    (hS : (∃ g, InternalCall M f g ∧ g ∉ rustifiedFuncs) ↔ ∃ g, InternalCall M f g ∧ g ∉ S) :
    cost.calculateScore = scoreIn M S f := by
  classical
  obtain ⟨mid, hmid, rfl⟩ := Option.map_eq_some_iff.mp h
  have hargs := analyzeArgs_run hmid
  obtain ⟨hinternal₀, hlibc₀, hlibrary₀, hindirect₀⟩ : mid.internalCallInsts = 0 ∧ mid.libcCallInsts = 0 ∧
      mid.libraryCallInsts = 0 ∧ mid.indCallInsts = 0 := by
    simpa [FunctionCost.callCounts] using hargs.calls
  have hcalls := analyzeInsts_calls M rustifiedFuncs { mid with isLeaf := true } body
  rw [hbody] at hcalls
  generalize body.foldl (analyzeInst M rustifiedFuncs) { mid with isLeaf := true } = cost at hcalls
  have hstruct : cost.hasStructArg = decide (HasStructArg M f) := by
    rw [hcalls.structArg, hargs.structArg, Bool.false_or, Bool.eq_iff_iff, List.any_eq_true, decide_eq_true_iff]
    rfl
  have hinternal : (cost.internalCallInsts != 0) = decide (∃ g, InternalCall M f g ∧ g ∉ S) := by
    rw [hcalls.internal, hinternal₀, Nat.zero_add, Bool.eq_iff_iff, countP_internal, hS, decide_eq_true_iff]
  have hlibc : (cost.libcCallInsts != 0) = decide (LibraryCall M true f) := by
    rw [hcalls.libc, hlibc₀, Nat.zero_add, Bool.eq_iff_iff, countP_library, decide_eq_true_iff]
  have hlibrary : (cost.libraryCallInsts != 0) = decide (LibraryCall M false f) := by
    rw [hcalls.library, hlibrary₀, Nat.zero_add, Bool.eq_iff_iff, countP_library, decide_eq_true_iff]
  have hindirect : (cost.indCallInsts != 0) = decide (HasCall M f .indirect) := by
    rw [hcalls.indirect, hindirect₀, Nat.zero_add, Bool.eq_iff_iff, countP_indirect, decide_eq_true_iff]
  rw [FunctionCost.calculateScore, hstruct, hinternal, hlibc, hlibrary, hindirect, scoreIn]

omit [DecidableEq φ] [DecidableEq σ] [Fintype σ] in
/-- **A function is rustified** if it is simple and so are its callees. -/
theorem isRustified_scoreIn {S : Set φ} {f : φ} :
    isRustified (scoreIn M S f) = true ↔ IsSimpleFunc M f ∧ ∀ g, InternalCall M f g → g ∈ S := by
  rw [scoreIn, isRustified_scoreBits]
  simp only [IsSimpleFunc, Bool.and_eq_true, Bool.not_eq_true', decide_eq_false_iff_not, not_exists, not_and, not_not]
  tauto

omit [DecidableEq φ] [DecidableEq σ] [Fintype σ] in
/-- Two sets of rustified functions give a function the same score exactly if they agree on whether
it calls one outside. -/
theorem scoreIn_eq_iff {S S' : Set φ} {f : φ} :
    scoreIn M S f = scoreIn M S' f ↔
      ((∃ g, InternalCall M f g ∧ g ∉ S) ↔ ∃ g, InternalCall M f g ∧ g ∉ S') := by
  rw [scoreIn, scoreIn, scoreBits_internal, decide_eq_decide]

/-! ## What one sweep rustifies -/

variable (M) in
/-- **The functions that a sweep rustifies**, one after the other. -/
def sweepSet (funcs : List φ) : Set φ :=
  funcs.foldl (fun S f => {g | g ∈ S ∨ g = f ∧ IsSimpleFunc M f ∧ ∀ callee, InternalCall M f callee → callee ∈ S}) ∅

omit [DecidableEq φ] [DecidableEq σ] [Fintype σ] in
/-- One more visit adds its function if that is simple and all its callees have been added before,
and adds nothing else. -/
theorem mem_sweepSet_concat {front : List φ} {f g : φ} :
    g ∈ sweepSet M (front ++ [f]) ↔ g ∈ sweepSet M front ∨
      g = f ∧ IsSimpleFunc M f ∧ ∀ callee, InternalCall M f callee → callee ∈ sweepSet M front := by
  rw [sweepSet, List.foldl_append]
  rfl

omit [DecidableEq φ] [DecidableEq σ] [Fintype σ] in
/-- Only visited functions are added. -/
theorem mem_of_mem_sweepSet {front : List φ} {g : φ} (h : g ∈ sweepSet M front) : g ∈ front := by
  induction front using List.reverseRecOn with
  | nil => cases h
  | append_singleton front f ih =>
    rcases mem_sweepSet_concat.mp h with h | ⟨rfl, -⟩
    · exact List.mem_append_left _ (ih h)
    · exact List.mem_append_right _ (List.mem_singleton_self g)

variable (M) in
/-- **A function whose callees can all be rustified is visited after them.** -/
def AfterCallees (funcs : List φ) : Prop :=
  ∀ front f back, funcs = front ++ f :: back → (∀ g, InternalCall M f g → CanRustify M funcs g) →
    ∀ g, InternalCall M f g → g ∈ front

omit [DecidableEq φ] [DecidableEq σ] [Fintype σ] in
/-- **Then the sweep has rustified at any time what can be**, of the functions visited so far. -/
theorem mem_sweepSet_iff {funcs : List φ} (hafter : AfterCallees M funcs) {front back : List φ}
    (hfuncs : funcs = front ++ back) {g : φ} : g ∈ sweepSet M front ↔ g ∈ front ∧ CanRustify M funcs g := by
  induction front using List.reverseRecOn generalizing back g with
  | nil => exact iff_of_false (fun h => h) fun h => List.not_mem_nil h.1
  | append_singleton front f ih =>
    rw [List.append_assoc, List.singleton_append] at hfuncs
    rw [mem_sweepSet_concat, List.mem_append, List.mem_singleton, ih hfuncs]
    constructor
    · rintro (⟨hmem, hcan⟩ | ⟨rfl, hsimple, hcallees⟩)
      · exact ⟨.inl hmem, hcan⟩
      · refine ⟨.inr rfl, .intro ?_ hsimple fun callee hcall => ((ih hfuncs).mp (hcallees callee hcall)).2⟩
        rw [hfuncs]
        exact List.mem_append_right _ List.mem_cons_self
    · rintro ⟨hmem | rfl, hcan⟩
      · exact .inl ⟨hmem, hcan⟩
      · obtain ⟨-, hsimple, hcallees⟩ := hcan
        refine .inr ⟨rfl, hsimple, fun callee hcall => (ih hfuncs).mpr ⟨?_, hcallees callee hcall⟩⟩
        exact hafter front g back hfuncs hcallees callee hcall

/-- **What the sweep has found** behind some functions. -/
structure SweepFound (M : IrModule φ σ) (front : List φ) (sweep : CostSweep φ) : Prop where
  rustified : (sweep.rustifiedFuncs : Set φ) = sweepSet M front
  scores : ∀ before f after, front = before ++ f :: after → ∃ cost, sweep.funcCostMap f = some cost ∧
    cost.calculateScore = scoreIn M (sweepSet M before) f

/-- **A visit** finds what a sweep finds. -/
theorem SweepFound.visit {front : List φ} {f : φ} {sweep sweep' : CostSweep φ} {body : φ → List (OrderedInst φ σ)}
    (hbody : Orders (M.body f) (body f)) (hnew : f ∉ front) (h : SweepFound M front sweep)
    (hvisit : visitFunc M body sweep f = some sweep') : SweepFound M (front ++ [f]) sweep' := by
  obtain ⟨cost, hcost, rfl⟩ := Option.map_eq_some_iff.mp hvisit
  have hmem : ∀ g, g ∈ sweep.rustifiedFuncs ↔ g ∈ sweepSet M front := fun g => by
    rw [← h.rustified, Finset.mem_coe]
  have hscore : cost.calculateScore = scoreIn M (sweepSet M front) f :=
    analyze_score hbody hcost (by simp only [hmem])
  constructor
  · ext g
    rw [mem_sweepSet_concat, ← isRustified_scoreIn, ← hscore, Finset.mem_coe]
    dsimp only
    split
    · rename_i hrustified
      rw [Finset.mem_insert, hmem]
      tauto
    · rename_i hrustified
      rw [hmem]
      tauto
  · intro before g after hsplit
    rcases List.eq_nil_or_concat' after with rfl | ⟨after, last, rfl⟩
    · obtain ⟨rfl, hlast⟩ := List.append_inj' hsplit rfl
      obtain rfl := (List.cons.inj hlast).1
      exact ⟨cost, Function.update_self .., hscore⟩
    · rw [← List.cons_append, ← List.append_assoc] at hsplit
      obtain ⟨rfl, hlast⟩ := List.append_inj' hsplit rfl
      obtain ⟨cost', hcost', hscore'⟩ := h.scores before g after rfl
      have hne : g ≠ f := fun heq => hnew (heq ▸ List.mem_append_right _ List.mem_cons_self)
      exact ⟨cost', (Function.update_of_ne hne ..).trans hcost', hscore'⟩

/-- **The sweep** finds it, and it comes to its end if the analyses do. -/
theorem runFuncBasedAnalysis_found (visits : VisitOrder M) {sweep : CostSweep φ}
    (h : runFuncBasedAnalysis visits = some sweep) : SweepFound M visits.funcs sweep := by
  have hrun : ∀ (back front : List φ) (sweep sweep' : CostSweep φ), (front ++ back).Nodup → SweepFound M front sweep →
      back.foldlM (visitFunc M visits.body) sweep = some sweep' → SweepFound M (front ++ back) sweep' := by
    intro back
    induction back with
    | nil =>
      intro front sweep sweep' _ hfound hdone
      obtain rfl := Option.some.inj hdone
      rwa [List.append_nil]
    | cons f back ih =>
      intro front sweep sweep' hnodup hfound hdone
      rw [List.foldlM_cons] at hdone
      obtain ⟨mid, hmid, hrest⟩ := Option.bind_eq_some_iff.mp hdone
      rw [List.append_cons] at hnodup ⊢
      refine ih _ mid sweep' hnodup (hfound.visit (visits.orders f) ?_ hmid) hrest
      exact fun hmem => List.disjoint_of_nodup_append (List.nodup_append.mp hnodup).1 hmem (List.mem_singleton_self f)
  refine hrun visits.funcs [] {} sweep visits.nodup ⟨?_, ?_⟩ h
  · exact Finset.coe_empty
  · intro before f after hsplit
    cases before <;> cases hsplit

/-- The analysis of a module ends exactly if the recursion into each struct among the arguments of
its functions does. -/
theorem runFuncBasedAnalysis_isSome (visits : VisitOrder M) :
    (runFuncBasedAnalysis visits).isSome ↔
      ∀ f ∈ visits.funcs, ∀ arg ∈ M.args f, ∀ s, structOfArg arg = some s →
        Terminates (isStructSimple M.elements) s := by
  have hrun : ∀ (funcs : List φ) (sweep : CostSweep φ), (funcs.foldlM (visitFunc M visits.body) sweep).isSome ↔
      ∀ f ∈ funcs, ∀ arg ∈ M.args f, ∀ s, structOfArg arg = some s → Terminates (isStructSimple M.elements) s := by
    intro funcs
    induction funcs with
    | nil => exact fun _ => iff_of_true rfl (List.forall_mem_nil _)
    | cons f funcs ih =>
      intro sweep
      have hends : (analyze M sweep.rustifiedFuncs (M.args f) (visits.body f)).isSome ↔ _ := analyze_ends
      rw [List.foldlM_cons, List.forall_mem_cons, ← hends]
      cases hcost : analyze M sweep.rustifiedFuncs (M.args f) (visits.body f) with
      | none => simp [visitFunc, hcost]
      | some cost => simp [visitFunc, hcost, ih]
  exact hrun visits.funcs {}

/-- **One sweep finds the least closed set and its scores** exactly if the analysis of each function comes to its end
and a function whose callees can all be rustified is visited after them. -/
theorem runFuncBasedAnalysis_iff (visits : VisitOrder M) :
    (∃ sweep, runFuncBasedAnalysis visits = some sweep ∧
      IsLeast {S | RustifyClosed M visits.funcs S} (sweep.rustifiedFuncs : Set φ) ∧
      ∀ f ∈ visits.funcs, ∃ cost, sweep.funcCostMap f = some cost ∧
        cost.calculateScore = scoreIn M (sweep.rustifiedFuncs : Set φ) f) ↔
    (∀ f ∈ visits.funcs, ∀ arg ∈ M.args f, ∀ s, structOfArg arg = some s →
      Terminates (isStructSimple M.elements) s) ∧ AfterCallees M visits.funcs := by
  have hleast := isLeast_canRustify M visits.funcs
  constructor
  · rintro ⟨sweep, hsweep, hset, hscores⟩
    refine ⟨(runFuncBasedAnalysis_isSome visits).mp (Option.isSome_of_eq_some hsweep), ?_⟩
    intro front f back hfuncs hcan g hcall
    have hfound := runFuncBasedAnalysis_found visits hsweep
    rw [hset.unique hleast] at hscores
    -- the score of the visit is the one that the least set gives
    obtain ⟨cost, hcost, hscore⟩ := hfound.scores front f back hfuncs
    obtain ⟨cost', hcost', hscore'⟩ := hscores f (hfuncs ▸ List.mem_append_right _ List.mem_cons_self)
    obtain rfl := Option.some.inj (hcost.symm.trans hcost')
    have hbits := scoreIn_eq_iff.mp (hscore.symm.trans hscore')
    by_contra hnot
    obtain ⟨callee, hcallee, hout⟩ := hbits.mp ⟨g, hcall, mt mem_of_mem_sweepSet hnot⟩
    exact hout (hcan callee hcallee)
  · rintro ⟨hends, hafter⟩
    obtain ⟨sweep, hsweep⟩ := Option.isSome_iff_exists.mp ((runFuncBasedAnalysis_isSome visits).mpr hends)
    have hfound := runFuncBasedAnalysis_found visits hsweep
    have hset : (sweep.rustifiedFuncs : Set φ) = {f | CanRustify M visits.funcs f} := by
      ext f
      rw [hfound.rustified, mem_sweepSet_iff hafter (List.append_nil _).symm]
      refine ⟨fun h => h.2, fun h => ⟨?_, h⟩⟩
      obtain ⟨hf, -, -⟩ := h
      exact hf
    refine ⟨sweep, hsweep, hset ▸ hleast, fun f hf => ?_⟩
    obtain ⟨front, back, hfuncs⟩ := List.append_of_mem hf
    obtain ⟨cost, hcost, hscore⟩ := hfound.scores front f back hfuncs
    refine ⟨cost, hcost, hscore.trans (scoreIn_eq_iff.mpr ?_)⟩
    rw [hset]
    constructor
    · rintro ⟨g, hcall, hout⟩
      by_contra hnone
      push Not at hnone
      exact hout ((mem_sweepSet_iff hafter hfuncs).mpr ⟨hafter front f back hfuncs hnone g hcall, hnone g hcall⟩)
    · rintro ⟨g, hcall, hout⟩
      exact ⟨g, hcall, fun hin => hout ((mem_sweepSet_iff hafter hfuncs).mp hin).2⟩

end

/-! ## A caller that is visited first -/

/-- `main` calls a function that returns at once. -/
def callerModule : IrModule Bool Empty where
  struct := Empty.elim
  identified := []
  name main := if main then "main" else "helper"
  isDeclaration _ := false
  args _ := []
  body main := if main then [.call (.direct (some false)) [], .ret none] else [.ret none]
  libcFunctionStrs := []

/-- The caller is visited before the callee. -/
def callerFirst : VisitOrder callerModule where
  funcs := [true, false]
  nodup := by decide
  body main := (callerModule.body main).map .plain
  orders main := orders_plain _

/-- **The caller is not rustified** although its callee is. -/
theorem callerFirst_not : ¬ ∃ sweep, runFuncBasedAnalysis callerFirst = some sweep ∧
    IsLeast {S | RustifyClosed callerModule callerFirst.funcs S} (sweep.rustifiedFuncs : Set Bool) ∧
    ∀ f ∈ callerFirst.funcs, ∃ cost, sweep.funcCostMap f = some cost ∧
      cost.calculateScore = scoreIn callerModule (sweep.rustifiedFuncs : Set Bool) f := by
  rintro ⟨sweep, hsweep, ⟨hclosed, -⟩, -⟩
  have hset : (runFuncBasedAnalysis callerFirst).map (·.rustifiedFuncs) = some {false} := rfl
  rw [hsweep, Option.map_some, Option.some_inj] at hset
  rw [hset] at hclosed
  have hcaller : true ∈ (({false} : Finset Bool) : Set Bool) := by
    refine hclosed true List.mem_cons_self ⟨?_, ?_, ?_⟩ ?_
    · rintro ⟨arg, harg, -⟩
      cases harg
    · rintro ⟨g, ⟨args, hmem⟩, hdecl, -⟩
      cases hdecl
    · rintro ⟨args, hmem⟩
      simp [callerModule] at hmem
    · rintro g ⟨⟨args, hmem⟩, -⟩
      simp only [callerModule, if_true, List.mem_cons, IrInst.call.injEq, CallTarget.direct.injEq] at hmem
      simp_all
  simp at hcaller

end Assure
