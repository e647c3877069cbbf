import Assure.Cost.FunctionCost

/-!
# The flags of a function

`hasAddrTaken`, `hasGlobalVar` and `hasNonSimpleType` are written over: what the last value or the last argument says
is what they are in the end. All other flags are only ever set. So the flags say what they are meant to say exactly if
nothing speaks against them after it (`analyze_flags_iff`).

Both directions are proved: for every function, with all orders in which the values of an
instruction may be gone through, all orders of the arguments, and all extensions by arguments and
instructions. Whether the flags are the right measure is not a question here.
-/

namespace Assure

open Assure.Library

/-! ## Flags that are written over -/

/-- **A flag says whether there is something** unless something else is the last. -/
theorem getLast_exact_iff {marks : List Bool} :
    (marks.getLast?.getD false = true ↔ true ∈ marks) ↔ (true ∈ marks → marks.getLast? = some true) := by
  cases hlast : marks.getLast? with
  | none =>
    obtain rfl := List.getLast?_eq_none_iff.mp hlast
    simp
  | some mark =>
    have hmem := List.mem_of_getLast? hlast
    cases mark <;> simp_all

section

variable {φ σ : Type} [DecidableEq σ] (M : IrModule φ σ)

/-! ## Flags that are only set -/

/-- **The flags that stay set.** -/
def FunctionCost.lasting (cost : FunctionCost) : Bool :=
  cost.isCollectionRelated || cost.isStringRelated || cost.hasCollectionStruct || cost.hasMultiOwnerStruct ||
    cost.hasUnion || cost.hasCharPtrArg || cost.hasVoidPtrArg || cost.hasDoublePointer || !cost.isLeaf ||
    decide (2 ≤ cost.structComplexityMax.toNat) || cost.hasNonSimplePointer

/-- A function is complex if one of three flags is set, of which only the first keeps what was once
found. -/
theorem FunctionCost.isComplex_eq (cost : FunctionCost) :
    cost.isComplex = (cost.lasting || cost.hasGlobalVar || cost.hasNonSimpleType) := by
  unfold FunctionCost.isComplex FunctionCost.lasting
  ac_rfl

/-- How many calls of each kind there are. -/
def FunctionCost.callCounts (cost : FunctionCost) : Nat × Nat × Nat × Nat :=
  (cost.internalCallInsts, cost.libcCallInsts, cost.libraryCallInsts, cost.indCallInsts)

/-- The struct that an argument is or points to. -/
def structOfArg : LType σ → Option σ
  | .ptr (.struct s) => some s
  | .struct s => some s
  | _ => none

/-- The base type of an argument makes a function complex. -/
def lastingBase (argType : LType σ) : Bool :=
  match argType with
  | .struct s => M.collectionStTypes.contains s || IrModule.multiOwnerStTypes.contains s || M.isUnion s
  | _ => false

/-- The struct of an argument makes a function complex. -/
def lastingStruct [Fintype σ] (argType : LType σ) : Bool :=
  ((structOfArg argType).bind M.structSimple).any fun out => decide (2 ≤ out.toNat)

/-- A pointer makes a function complex. -/
def lastingPointer : LType σ → Bool
  | .ptr (.ptr _) => true
  | .ptr (.struct _) => false
  | .ptr pointee => isCharPtrType (.ptr pointee) || isVoidPtrType (.ptr pointee)
  | _ => false

/-- **An argument that makes a function complex for good.** -/
def lastingArg [Fintype σ] (argType : LType σ) : Bool :=
  lastingBase M (getBaseType argType) || lastingStruct M argType || lastingPointer argType

/-- **What an argument says about `hasNonSimpleType`**, if anything. -/
def argMark : LType σ → Option Bool
  | .ptr (.ptr _) => none
  | .ptr (.struct _) => none
  | .ptr pointee => if isCharPtrType (.ptr pointee) || isVoidPtrType (.ptr pointee) then none else some true
  | .struct _ => none
  | _ => some false

/-- **An instruction that makes a function complex for good.** -/
def lastingInst : IrInst φ σ → Bool
  | .call _ _ => true
  | .gep gepPtrType indices =>
    (isCharPtrType gepPtrType || isVoidPtrType gepPtrType) && decide (getGepIndex indices = -1)
  | _ => false

variable {M}

/-- A raised complication is at least the second level exactly if one of the two it was raised from
is. -/
theorem two_le_raise (out result : StructComplication) :
    decide (2 ≤ (out.raise result).toNat) = (decide (2 ≤ out.toNat) || decide (2 ≤ result.toNat)) := by
  cases out <;> cases result <;> decide

/-- What an argument does to the record. -/
structure ArgStep [Fintype σ] (M : IrModule φ σ) (argType : LType σ) (cost cost' : FunctionCost) : Prop where
  lasting : cost'.lasting = (cost.lasting || lastingArg M argType)
  nonSimple : cost'.hasNonSimpleType = (argMark argType).getD cost.hasNonSimpleType
  addrTaken : cost'.hasAddrTaken = cost.hasAddrTaken
  globalVar : cost'.hasGlobalVar = cost.hasGlobalVar
  leaf : cost'.isLeaf = cost.isLeaf
  structArg : cost'.hasStructArg = (cost.hasStructArg || isStructTy (getBaseType argType))
  calls : cost'.callCounts = cost.callCounts

/-- The base type of an argument adds its own share to the lasting flags. -/
theorem analyzeBaseType_lasting (cost : FunctionCost) (argType : LType σ) :
    (analyzeBaseType M cost argType).lasting = (cost.lasting || lastingBase M argType) := by
  cases argType with
  | struct s =>
    simp only [analyzeBaseType, FunctionCost.lasting, lastingBase]
    ac_rfl
  | _ => exact (Bool.or_false _).symm

/-- It touches none of the other flags and no count. -/
theorem analyzeBaseType_kept (cost : FunctionCost) (argType : LType σ) :
    (analyzeBaseType M cost argType).hasNonSimpleType = cost.hasNonSimpleType ∧
      (analyzeBaseType M cost argType).hasAddrTaken = cost.hasAddrTaken ∧
      (analyzeBaseType M cost argType).hasGlobalVar = cost.hasGlobalVar ∧
      (analyzeBaseType M cost argType).isLeaf = cost.isLeaf ∧
      (analyzeBaseType M cost argType).callCounts = cost.callCounts := by
  cases argType <;> exact ⟨rfl, rfl, rfl, rfl, rfl⟩

/-- It sets the flag for structs if it is one. -/
theorem analyzeBaseType_structArg (cost : FunctionCost) (argType : LType σ) :
    (analyzeBaseType M cost argType).hasStructArg = (cost.hasStructArg || isStructTy argType) := by
  cases argType with
  | struct s => exact (Bool.or_true _).symm
  | _ => exact (Bool.or_false _).symm

variable [Fintype σ]

/-- A step that sets flags which stay set, behind the base type. -/
theorem ArgStep.of_base {argType : LType σ} {cost cost' : FunctionCost}
    (hlasting : cost'.lasting = ((analyzeBaseType M cost (getBaseType argType)).lasting || lastingStruct M argType ||
      lastingPointer argType))
    (hnonSimple : cost'.hasNonSimpleType =
      (argMark argType).getD (analyzeBaseType M cost (getBaseType argType)).hasNonSimpleType)
    (haddr : cost'.hasAddrTaken = (analyzeBaseType M cost (getBaseType argType)).hasAddrTaken)
    (hglobal : cost'.hasGlobalVar = (analyzeBaseType M cost (getBaseType argType)).hasGlobalVar)
    (hleaf : cost'.isLeaf = (analyzeBaseType M cost (getBaseType argType)).isLeaf)
    (hstruct : cost'.hasStructArg = (analyzeBaseType M cost (getBaseType argType)).hasStructArg)
    (hcalls : cost'.callCounts = (analyzeBaseType M cost (getBaseType argType)).callCounts) :
    ArgStep M argType cost cost' where
  lasting := by
    rw [hlasting, analyzeBaseType_lasting, lastingArg]
    ac_rfl
  nonSimple := by rw [hnonSimple, (analyzeBaseType_kept cost _).1]
  addrTaken := by rw [haddr, (analyzeBaseType_kept cost _).2.1]
  globalVar := by rw [hglobal, (analyzeBaseType_kept cost _).2.2.1]
  leaf := by rw [hleaf, (analyzeBaseType_kept cost _).2.2.2.1]
  structArg := by rw [hstruct, analyzeBaseType_structArg]
  calls := by rw [hcalls, (analyzeBaseType_kept cost _).2.2.2.2]

/-- A pointer to something else than a pointer or a struct. -/
theorem pointer_step {pointee : LType σ} {cost cost' : FunctionCost} (hstruct : structOfArg (.ptr pointee) = none)
    (hpointer : lastingPointer (.ptr pointee) = (isCharPtrType (.ptr pointee) || isVoidPtrType (.ptr pointee)))
    (hmark : argMark (.ptr pointee) =
      if isCharPtrType (.ptr pointee) || isVoidPtrType (.ptr pointee) then none else some true)
    (h : (let cost := analyzeBaseType M cost (getBaseType (.ptr pointee))
      if isCharPtrType (.ptr pointee) then some { cost with hasCharPtrArg := true }
      else if isVoidPtrType (.ptr pointee) then some { cost with hasVoidPtrArg := true }
      else if !isIntType (.ptr pointee) || isCharType (.ptr pointee) || isFloating "float" (.ptr pointee) ||
          isFloating "double" (.ptr pointee) then
        some { cost with hasNonSimpleType := true }
      else some { cost with hasNonSimplePointer := true }) = some cost') : ArgStep M (.ptr pointee) cost cost' := by
  have hnone : lastingStruct M (.ptr pointee) = false := by
    rw [lastingStruct, hstruct]
    rfl
  dsimp only at h
  split at h
  · rename_i hchar
    obtain rfl := Option.some.inj h
    refine .of_base ?_ (by rw [hmark, hchar]; rfl) rfl rfl rfl rfl rfl
    simp [FunctionCost.lasting, hnone, hpointer, hchar]
  · rename_i hchar
    split at h
    · rename_i hvoid
      obtain rfl := Option.some.inj h
      refine .of_base ?_ (by rw [hmark, hvoid, Bool.or_true]; rfl) rfl rfl rfl rfl rfl
      simp [FunctionCost.lasting, hnone, hpointer, hvoid]
    · rename_i hvoid
      -- a pointer is no integer
      have hnoInt : (!isIntType (.ptr pointee) || isCharType (.ptr pointee) || isFloating "float" (.ptr pointee) ||
          isFloating "double" (.ptr pointee)) = true := rfl
      rw [if_pos hnoInt] at h
      obtain rfl := Option.some.inj h
      have hpointer' : lastingPointer (.ptr pointee) = false := by
        rw [hpointer, Bool.eq_false_iff.mpr hchar, Bool.eq_false_iff.mpr hvoid]
        rfl
      refine .of_base ?_ (by rw [hmark, Bool.eq_false_iff.mpr hchar, Bool.eq_false_iff.mpr hvoid]; rfl) rfl rfl rfl rfl rfl
      simp [FunctionCost.lasting, hnone, hpointer']

/-- Everything an argument does to the record, whatever its type. The rest of the module uses this
and no longer looks into the analysis of an argument. -/
theorem analyzeArg_step {argType : LType σ} {cost cost' : FunctionCost} (h : analyzeArg M cost argType = some cost') :
    ArgStep M argType cost cost' := by
  cases argType with
  | ptr pointee =>
    cases pointee with
    | ptr inner =>
      obtain rfl := Option.some.inj h
      exact .of_base (by simp [FunctionCost.lasting, lastingPointer]) rfl rfl rfl rfl rfl rfl
    | struct s =>
      obtain ⟨out, hout, rfl⟩ := Option.map_eq_some_iff.mp h
      have hhas : decide (2 ≤ StructComplication.t_hasptr.toNat) = false := rfl
      refine .of_base ?_ rfl rfl rfl rfl rfl rfl
      simp only [FunctionCost.lasting, lastingStruct, lastingPointer, structOfArg, Option.bind_some, hout,
        Option.any_some, two_le_raise, hhas, Bool.or_false]
      ac_rfl
    | _ => exact pointer_step rfl rfl rfl h
  | struct s =>
    obtain ⟨out, hout, rfl⟩ := Option.map_eq_some_iff.mp h
    refine .of_base ?_ rfl rfl rfl rfl rfl rfl
    simp only [FunctionCost.lasting, lastingStruct, lastingPointer, structOfArg, Option.bind_some, hout,
      Option.any_some, two_le_raise, Bool.or_false]
    ac_rfl
  | _ =>
    obtain rfl := Option.some.inj h
    exact .of_base (by simp [FunctionCost.lasting, lastingPointer, lastingStruct, structOfArg]) rfl rfl rfl rfl rfl rfl

/-- **An argument is analyzed** if the struct that it is or points to is. -/
theorem analyzeArg_isSome {argType : LType σ} {cost : FunctionCost} :
    (analyzeArg M cost argType).isSome ↔ ∀ s, structOfArg argType = some s → (M.structSimple s).isSome := by
  cases argType with
  | ptr pointee =>
    cases pointee with
    | struct s => simp [analyzeArg, structOfArg]
    | ptr inner => simp [analyzeArg, structOfArg]
    | _ =>
      refine iff_of_true ?_ (by simp [structOfArg])
      unfold analyzeArg
      dsimp only
      split
      · rfl
      · split
        · rfl
        · split <;> rfl
  | struct s => simp [analyzeArg, structOfArg]
  | _ => simp [analyzeArg, structOfArg]

/-! ## All arguments -/

/-- What the arguments do to the record. -/
structure ArgsRun (M : IrModule φ σ) (args : List (LType σ)) (cost cost' : FunctionCost) : Prop where
  lasting : cost'.lasting = (cost.lasting || args.any (lastingArg M))
  nonSimple : cost'.hasNonSimpleType = (args.filterMap argMark).getLast?.getD cost.hasNonSimpleType
  addrTaken : cost'.hasAddrTaken = cost.hasAddrTaken
  globalVar : cost'.hasGlobalVar = cost.hasGlobalVar
  leaf : cost'.isLeaf = cost.isLeaf
  structArg : cost'.hasStructArg = (cost.hasStructArg || args.any fun arg => isStructTy (getBaseType arg))
  calls : cost'.callCounts = cost.callCounts

/-- Everything the arguments do together, by induction on their list. -/
theorem analyzeArgs_run {args : List (LType σ)} {cost cost' : FunctionCost}
    (h : args.foldlM (analyzeArg M) cost = some cost') : ArgsRun M args cost cost' := by
  induction args generalizing cost with
  | nil =>
    obtain rfl := Option.some.inj h
    exact ⟨(Bool.or_false _).symm, rfl, rfl, rfl, rfl, (Bool.or_false _).symm, rfl⟩
  | cons arg args ih =>
    rw [List.foldlM_cons] at h
    obtain ⟨mid, hmid, hrest⟩ := Option.bind_eq_some_iff.mp h
    have hstep := analyzeArg_step hmid
    have hrun := ih hrest
    refine ⟨?_, ?_, hrun.addrTaken.trans hstep.addrTaken, hrun.globalVar.trans hstep.globalVar,
      hrun.leaf.trans hstep.leaf, ?_, hrun.calls.trans hstep.calls⟩
    · rw [hrun.lasting, hstep.lasting, List.any_cons, Bool.or_assoc]
    · rw [hrun.nonSimple, hstep.nonSimple]
      cases hmark : argMark arg with
      | none =>
        rw [List.filterMap_cons_none hmark]
        rfl
      | some mark =>
        rw [List.filterMap_cons_some hmark, List.getLast?_cons]
        rfl
    · rw [hrun.structArg, hstep.structArg, List.any_cons, Bool.or_assoc]

/-- The analysis of the arguments comes to an end exactly if the search into each of their structs
does. -/
theorem analyzeArgs_isSome {args : List (LType σ)} {cost : FunctionCost} :
    (args.foldlM (analyzeArg M) cost).isSome ↔
      ∀ arg ∈ args, ∀ s, structOfArg arg = some s → (M.structSimple s).isSome := by
  induction args generalizing cost with
  | nil => exact iff_of_true rfl (List.forall_mem_nil _)
  | cons arg args ih =>
    have harg : (analyzeArg M cost arg).isSome ↔ _ := analyzeArg_isSome
    rw [List.foldlM_cons, List.forall_mem_cons, ← harg]
    cases analyzeArg M cost arg with
    | none => simp
    | some mid =>
      rw [Option.bind_eq_bind, Option.bind_some, ih]
      simp

/-! ## All instructions -/

variable [DecidableEq φ] {rustifiedFuncs : Finset φ}

/-- What instructions do to the record, given the values in the order in which they are gone through. -/
structure InstsRun (insts : List (IrInst φ σ)) (values : List (IrValue σ)) (cost cost' : FunctionCost) : Prop where
  lasting : cost'.lasting = (cost.lasting || insts.any lastingInst)
  nonSimple : cost'.hasNonSimpleType = cost.hasNonSimpleType
  addrTaken : cost'.hasAddrTaken = (values.map isAddrTaken).getLast?.getD cost.hasAddrTaken
  globalVar : cost'.hasGlobalVar = (values.map isGlobalVar).getLast?.getD cost.hasGlobalVar

omit [Fintype σ] [DecidableEq σ] [DecidableEq φ] in
/-- The values of an instruction, gone through in some order, leave the flags of the last of them.
-/
theorem InstsRun.values (cost : FunctionCost) (values : List (IrValue σ)) :
    InstsRun ([] : List (IrInst φ σ)) values cost (values.foldl analyzeValue cost) := by
  induction values generalizing cost with
  | nil => exact ⟨(Bool.or_false _).symm, rfl, rfl, rfl⟩
  | cons value values ih =>
    obtain ⟨hlasting, hnonSimple, haddr, hglobal⟩ := ih (analyzeValue cost value)
    refine ⟨hlasting, hnonSimple, ?_, ?_⟩
    · rw [List.foldl_cons, haddr, List.map_cons, List.getLast?_cons]
      rfl
    · rw [List.foldl_cons, hglobal, List.map_cons, List.getLast?_cons]
      rfl

omit [Fintype σ] [DecidableEq σ] in
variable (M rustifiedFuncs) in
/-- Counting a call leaves all flags as they are. -/
theorem analyzeCall_run (cost : FunctionCost) (target : CallTarget φ) :
    (analyzeCall M rustifiedFuncs cost target).lasting = cost.lasting ∧
      (analyzeCall M rustifiedFuncs cost target).hasNonSimpleType = cost.hasNonSimpleType ∧
      (analyzeCall M rustifiedFuncs cost target).hasAddrTaken = cost.hasAddrTaken ∧
      (analyzeCall M rustifiedFuncs cost target).hasGlobalVar = cost.hasGlobalVar := by
  cases target with
  | indirect => exact ⟨rfl, rfl, rfl, rfl⟩
  | direct callee =>
    cases callee with
    | none => exact ⟨rfl, rfl, rfl, rfl⟩
    | some callee =>
      dsimp only [analyzeCall]
      split
      · split <;> exact ⟨rfl, rfl, rfl, rfl⟩
      · split <;> exact ⟨rfl, rfl, rfl, rfl⟩

omit [Fintype σ] in
/-- Everything one instruction does to the flags. -/
theorem analyzeInst_run (cost : FunctionCost) (inst : OrderedInst φ σ) :
    InstsRun [inst.inst] inst.values cost (analyzeInst M rustifiedFuncs cost inst) := by
  obtain ⟨inst, values, hperm⟩ := inst
  obtain ⟨hlasting, hnonSimple, haddr, hglobal⟩ := InstsRun.values (φ := φ) cost values
  rw [List.any_nil, Bool.or_false] at hlasting
  unfold analyzeInst
  dsimp only
  generalize values.foldl analyzeValue cost = cost' at *
  cases inst with
  | call target args =>
    obtain ⟨hcall, hcall', hcall'', hcall'''⟩ :=
      analyzeCall_run M rustifiedFuncs { cost' with isLeaf := false } target
    have hset : ({ cost' with isLeaf := false } : FunctionCost).lasting = true := by simp [FunctionCost.lasting]
    refine ⟨(hcall.trans hset).trans ?_, hcall'.trans hnonSimple, hcall''.trans haddr, hcall'''.trans hglobal⟩
    simp [lastingInst]
  | gep gepPtrType indices =>
    have hkind : (!isCharPtrType gepPtrType && !isVoidPtrType gepPtrType) =
        !(isCharPtrType gepPtrType || isVoidPtrType gepPtrType) := (Bool.not_or _ _).symm
    dsimp only [analyzeGepInst]
    rw [hkind]
    cases hptr : isCharPtrType gepPtrType || isVoidPtrType gepPtrType with
    | false => exact ⟨by simp [hlasting, lastingInst, hptr], hnonSimple, haddr, hglobal⟩
    | true =>
      by_cases hindex : getGepIndex indices = -1
      · rw [if_neg (by simp), if_pos hindex]
        exact ⟨by simp [FunctionCost.lasting, lastingInst, hptr, hindex], hnonSimple, haddr, hglobal⟩
      · rw [if_neg (by simp), if_neg hindex]
        exact ⟨by simp [hlasting, lastingInst, hptr, hindex], hnonSimple, haddr, hglobal⟩
  | _ => exact ⟨by rw [hlasting]; exact (Bool.or_false _).symm, hnonSimple, haddr, hglobal⟩

omit [Fintype σ] [DecidableEq σ] [DecidableEq φ] in
/-- Instructions followed by others; what the later ones overwrite is lost. -/
theorem InstsRun.trans {insts insts' : List (IrInst φ σ)} {values values' : List (IrValue σ)}
    {cost cost' cost'' : FunctionCost} (h : InstsRun insts values cost cost') (h' : InstsRun insts' values' cost' cost'') :
    InstsRun (insts ++ insts') (values ++ values') cost cost'' where
  lasting := by rw [h'.lasting, h.lasting, List.any_append, Bool.or_assoc]
  nonSimple := h'.nonSimple.trans h.nonSimple
  addrTaken := by
    rw [h'.addrTaken, h.addrTaken, List.map_append, List.getLast?_append]
    cases (values'.map isAddrTaken).getLast? <;> rfl
  globalVar := by
    rw [h'.globalVar, h.globalVar, List.map_append, List.getLast?_append]
    cases (values'.map isGlobalVar).getLast? <;> rfl

variable (M rustifiedFuncs) in
omit [Fintype σ] in
/-- Everything the instructions do to the flags, by induction on the body. -/
theorem analyzeInsts_run (cost : FunctionCost) (body : List (OrderedInst φ σ)) :
    InstsRun (body.map (·.inst)) (body.flatMap (·.values)) cost (body.foldl (analyzeInst M rustifiedFuncs) cost) := by
  induction body generalizing cost with
  | nil => exact .values cost []
  | cons inst body ih => exact (analyzeInst_run cost inst).trans (ih _)

/-- **What the analysis finds**, given the values in the order in which they are gone through. -/
structure AnalysisFound (M : IrModule φ σ) (args : List (LType σ)) (insts : List (IrInst φ σ))
    (values : List (IrValue σ))
    (cost : FunctionCost) : Prop where
  lasting : cost.lasting = (args.any (lastingArg M) || insts.any lastingInst)
  nonSimple : cost.hasNonSimpleType = (args.filterMap argMark).getLast?.getD false
  addrTaken : cost.hasAddrTaken = (values.map isAddrTaken).getLast?.getD false
  globalVar : cost.hasGlobalVar = (values.map isGlobalVar).getLast?.getD false

/-- **What a run of the analysis finds.** -/
theorem analyze_found {args : List (LType σ)} {body : List (OrderedInst φ σ)} {cost : FunctionCost}
    (h : analyze M rustifiedFuncs args body = some cost) :
    AnalysisFound M args (body.map (·.inst)) (body.flatMap (·.values)) cost := by
  obtain ⟨mid, hmid, rfl⟩ := Option.map_eq_some_iff.mp h
  have hargs := analyzeArgs_run hmid
  have hleaf : ({ mid with isLeaf := true } : FunctionCost) = mid := by
    have htrue : mid.isLeaf = true := hargs.leaf
    rw [← htrue]
  rw [hleaf]
  have hrun := analyzeInsts_run M rustifiedFuncs mid body
  have hstart : ({} : FunctionCost).lasting = false := rfl
  refine ⟨?_, hrun.nonSimple.trans hargs.nonSimple, ?_, ?_⟩
  · rw [hrun.lasting, hargs.lasting, hstart, Bool.false_or]
  · rw [hrun.addrTaken, hargs.addrTaken]
  · rw [hrun.globalVar, hargs.globalVar]

/-- The whole analysis ends exactly if that of the arguments does, since the instructions always do.
-/
theorem analyze_isSome {args : List (LType σ)} {body : List (OrderedInst φ σ)} :
    (analyze M rustifiedFuncs args body).isSome ↔
      ∀ arg ∈ args, ∀ s, structOfArg arg = some s → (M.structSimple s).isSome := by
  rw [analyze, Option.isSome_map]
  exact analyzeArgs_isSome

end

/-! ## Orders -/

section

variable {φ σ : Type} [DecidableEq σ]

/-- The values of the last instruction that has any. -/
def lastValues (insts : List (IrInst φ σ)) : List (IrValue σ) :=
  ((insts.map getInstValues).filter (· ≠ [])).getLast?.getD []

/-- Some instruction has such a value. -/
def SomeValue (p : IrValue σ → Bool) (insts : List (IrInst φ σ)) : Prop :=
  ∃ inst ∈ insts, ∃ value ∈ getInstValues inst, p value = true

/-- An instruction with its values in the order in which they were put in. -/
def OrderedInst.plain (inst : IrInst φ σ) : OrderedInst φ σ := ⟨inst, getInstValues inst, .refl _⟩

/-- An order of the instructions' values. -/
def Orders (insts : List (IrInst φ σ)) (body : List (OrderedInst φ σ)) : Prop := body.map (·.inst) = insts

/-- An instruction without values leaves the values that were looked at last. -/
theorem lastValues_concat (insts : List (IrInst φ σ)) (inst : IrInst φ σ) :
    lastValues (insts ++ [inst]) = if getInstValues inst = [] then lastValues insts else getInstValues inst := by
  unfold lastValues
  rw [List.map_append, List.filter_append]
  split
  · rename_i hnil
    simp [hnil]
  · rename_i hne
    simp [hne]

/-- The values that are gone through are those of the instructions. -/
theorem mem_visited {body : List (OrderedInst φ σ)} {value : IrValue σ} :
    value ∈ body.flatMap (·.values) ↔ ∃ inst ∈ body.map (·.inst), value ∈ getInstValues inst := by
  simp only [List.mem_flatMap, List.mem_map]
  constructor
  · rintro ⟨inst, hinst, hvalue⟩
    exact ⟨inst.inst, ⟨inst, hinst, rfl⟩, inst.perm.mem_iff.mp hvalue⟩
  · rintro ⟨_, ⟨inst, hinst, rfl⟩, hvalue⟩
    exact ⟨inst, hinst, inst.perm.mem_iff.mpr hvalue⟩

/-- **The last value that is visited** is one of the last instruction that has any. -/
theorem getLast?_visited (body : List (OrderedInst φ σ)) {value : IrValue σ}
    (h : (body.flatMap (·.values)).getLast? = some value) : value ∈ lastValues (body.map (·.inst)) := by
  induction body using List.reverseRecOn with
  | nil => cases h
  | append_singleton body inst ih =>
    rw [List.map_append, List.map_singleton, lastValues_concat]
    rw [List.flatMap_append, List.flatMap_singleton, List.getLast?_append] at h
    split
    · rename_i hnil
      have hvalues : inst.values = [] := List.Perm.eq_nil (hnil ▸ inst.perm)
      rw [hvalues] at h
      exact ih h
    · rename_i hne
      obtain ⟨last, hlast⟩ : ∃ last, inst.values.getLast? = some last := by
        refine ⟨_, List.getLast?_eq_some_getLast fun hnil => hne ?_⟩
        exact List.Perm.eq_nil (hnil ▸ inst.perm.symm)
      rw [hlast] at h
      obtain rfl := Option.some.inj h
      exact inst.perm.mem_iff.mp (List.mem_of_getLast? hlast)

/-- **Each of them is the last in some order.** -/
theorem exists_order (insts : List (IrInst φ σ)) {value : IrValue σ} (h : value ∈ lastValues insts) :
    ∃ body : List (OrderedInst φ σ), Orders insts body ∧ (body.flatMap (·.values)).getLast? = some value := by
  induction insts using List.reverseRecOn with
  | nil => cases h
  | append_singleton insts inst ih =>
    rw [lastValues_concat] at h
    split at h
    · rename_i hnil
      obtain ⟨body, rfl, hlast⟩ := ih h
      refine ⟨body ++ [.plain inst], by simp [Orders, OrderedInst.plain], ?_⟩
      have hvalues : (OrderedInst.plain inst).values = [] := hnil
      rw [List.flatMap_append, List.flatMap_singleton, hvalues, List.append_nil, hlast]
    · have hperm : ((getInstValues inst).erase value ++ [value]).Perm (getInstValues inst) :=
        (List.perm_append_singleton _ _).trans (List.perm_cons_erase h).symm
      refine ⟨insts.map .plain ++ [⟨inst, _, hperm⟩], ?_, ?_⟩
      · simp [Orders, OrderedInst.plain, Function.comp_def]
      · rw [List.flatMap_append, List.flatMap_singleton, ← List.append_assoc, List.getLast?_concat]

/-- **A flag about values is exact in every order** exactly if the last instruction with values says so. -/
theorem exact_orders_iff {p : IrValue σ → Bool} {insts : List (IrInst φ σ)} :
    (∀ body, Orders insts body →
      (((body.flatMap (·.values)).map p).getLast?.getD false = true ↔ SomeValue p insts)) ↔
      (SomeValue p insts → ∀ value ∈ lastValues insts, p value = true) := by
  have hsome : ∀ body : List (OrderedInst φ σ), Orders insts body →
      (true ∈ (body.flatMap (·.values)).map p ↔ SomeValue p insts) := by
    rintro body rfl
    rw [List.mem_map]
    constructor
    · rintro ⟨value, hvalue, hp⟩
      obtain ⟨inst, hinst, hmem⟩ := mem_visited.mp hvalue
      exact ⟨inst, hinst, value, hmem, hp⟩
    · rintro ⟨inst, hinst, value, hmem, hp⟩
      exact ⟨value, mem_visited.mpr ⟨inst, hinst, hmem⟩, hp⟩
  constructor
  · intro h hthere value hvalue
    obtain ⟨body, hbody, hlast⟩ := exists_order insts hvalue
    have hflag := (h body hbody).mpr hthere
    rw [List.getLast?_map, hlast] at hflag
    exact hflag
  · intro h body hbody
    rw [← hsome body hbody, getLast_exact_iff]
    intro hmem
    obtain ⟨value, hlast⟩ : ∃ value, (body.flatMap (·.values)).getLast? = some value := by
      refine ⟨_, List.getLast?_eq_some_getLast fun hnil => ?_⟩
      rw [hnil] at hmem
      cases hmem
    have hvalue := getLast?_visited body hlast
    rw [hbody] at hvalue
    rw [List.getLast?_map, hlast, Option.map_some, h ((hsome body hbody).mp hmem) value hvalue]

end

/-! ## What the flags are meant to say -/

section

variable {φ σ : Type} [DecidableEq σ]

/-- An argument that is no simple type. -/
def isNonSimple (argType : LType σ) : Bool := argMark argType = some true

/-- **The flags say whether there is such a value or argument.** -/
structure FlagsExact (args : List (LType σ)) (insts : List (IrInst φ σ)) (cost : FunctionCost) : Prop where
  globalVar : cost.hasGlobalVar = true ↔ SomeValue isGlobalVar insts
  addrTaken : cost.hasAddrTaken = true ↔ SomeValue isAddrTaken insts
  nonSimple : cost.hasNonSimpleType = true ↔ ∃ arg ∈ args, isNonSimple arg = true

variable [DecidableEq φ] [Fintype σ] (M : IrModule φ σ) (rustifiedFuncs : Finset φ)

/-- **The law of the flags** for a function: in every order of its instructions' values they are exact, whether it is
complex does not depend on that order or on the order of its arguments, and with more arguments or instructions a
complex function stays complex. -/
structure FlagsLaw (args : List (LType σ)) (insts : List (IrInst φ σ)) : Prop where
  exact : ∀ body, Orders insts body → ∃ cost, analyze M rustifiedFuncs args body = some cost ∧
    FlagsExact args insts cost
  order : ∀ args' body body', args'.Perm args → Orders insts body → Orders insts body' →
    (analyze M rustifiedFuncs args' body').map (·.isComplex) = (analyze M rustifiedFuncs args body).map (·.isComplex)
  monotone : ∀ args' insts' body body' cost cost', args.Sublist args' → insts.Sublist insts' → Orders insts body →
    Orders insts' body' → analyze M rustifiedFuncs args body = some cost →
    analyze M rustifiedFuncs args' body' = some cost' → cost.isComplex = true → cost'.isComplex = true

/-- **Nothing is lost**: the analysis comes to its end, the last values and the last argument with a say say what any
does, and a function with a global variable or a non-simple argument is complex for good. -/
structure NothingLost (args : List (LType σ)) (insts : List (IrInst φ σ)) : Prop where
  ends : ∀ arg ∈ args, ∀ s, structOfArg arg = some s → Terminates (isStructSimple M.elements) s
  globalVar : SomeValue isGlobalVar insts → ∀ value ∈ lastValues insts, isGlobalVar value = true
  addrTaken : SomeValue isAddrTaken insts → ∀ value ∈ lastValues insts, isAddrTaken value = true
  nonSimple : (∃ arg ∈ args, isNonSimple arg = true) → (args.filterMap argMark).getLast? = some true
  lasting : SomeValue isGlobalVar insts ∨ (∃ arg ∈ args, isNonSimple arg = true) →
    (∃ arg ∈ args, lastingArg M arg = true) ∨ ∃ inst ∈ insts, lastingInst inst = true

variable {M rustifiedFuncs} {args : List (LType σ)} {insts : List (IrInst φ σ)} {body : List (OrderedInst φ σ)}
  {cost : FunctionCost}

omit [DecidableEq φ] in
/-- The search into a struct ends exactly if the recursion does. -/
theorem structSimple_isSome {s : σ} : (M.structSimple s).isSome ↔ Terminates (isStructSimple M.elements) s := by
  rw [Option.isSome_iff_exists]
  exact exists_congr fun result => M.structSimple_eq_some

/-- The analysis ends exactly if the recursion into each struct among the arguments does. -/
theorem analyze_ends :
    (analyze M rustifiedFuncs args body).isSome ↔
      ∀ arg ∈ args, ∀ s, structOfArg arg = some s → Terminates (isStructSimple M.elements) s := by
  simp only [analyze_isSome, structSimple_isSome]

omit [Fintype σ] [DecidableEq σ] in
/-- Among the marks of the arguments there is a set one exactly if some argument is not simple. -/
theorem mem_argMarks : true ∈ args.filterMap argMark ↔ ∃ arg ∈ args, isNonSimple arg = true := by
  simp [List.mem_filterMap, isNonSimple]

omit [DecidableEq φ] in
/-- For good, a function is complex by its arguments and instructions in any order. -/
theorem AnalysisFound.lasting_iff {values : List (IrValue σ)} (h : AnalysisFound M args insts values cost) :
    cost.lasting = true ↔
      (∃ arg ∈ args, lastingArg M arg = true) ∨ ∃ inst ∈ insts, lastingInst inst = true := by
  rw [h.lasting, Bool.or_eq_true, List.any_eq_true, List.any_eq_true]

/-- **The flags are exact in every order** exactly if nothing that was said is unsaid. -/
theorem flagsExact_iff (hends : ∀ arg ∈ args, ∀ s, structOfArg arg = some s →
    Terminates (isStructSimple M.elements) s) :
    (∀ body, Orders insts body →
      ∃ cost, analyze M rustifiedFuncs args body = some cost ∧ FlagsExact args insts cost) ↔
      (SomeValue isGlobalVar insts → ∀ value ∈ lastValues insts, isGlobalVar value = true) ∧
      (SomeValue isAddrTaken insts → ∀ value ∈ lastValues insts, isAddrTaken value = true) ∧
      ((∃ arg ∈ args, isNonSimple arg = true) → (args.filterMap argMark).getLast? = some true) := by
  have hcost : ∀ body, ∃ cost, analyze M rustifiedFuncs args body = some cost := fun body =>
    Option.isSome_iff_exists.mp (analyze_ends.mpr hends)
  have hflags : ∀ body, Orders insts body → ∀ cost, analyze M rustifiedFuncs args body = some cost →
      (FlagsExact args insts cost ↔
        (((body.flatMap (·.values)).map isGlobalVar).getLast?.getD false = true ↔ SomeValue isGlobalVar insts) ∧
        (((body.flatMap (·.values)).map isAddrTaken).getLast?.getD false = true ↔ SomeValue isAddrTaken insts) ∧
        ((args.filterMap argMark).getLast?.getD false = true ↔ true ∈ args.filterMap argMark)) := by
    intro body _ cost h
    have hfound := analyze_found h
    rw [← hfound.globalVar, ← hfound.addrTaken, ← hfound.nonSimple, mem_argMarks]
    exact ⟨fun h => ⟨h.globalVar, h.addrTaken, h.nonSimple⟩, fun h => ⟨h.1, h.2.1, h.2.2⟩⟩
  have hplain : Orders insts (insts.map .plain) := by simp [Orders, OrderedInst.plain, Function.comp_def]
  rw [← exact_orders_iff, ← exact_orders_iff, ← mem_argMarks, ← getLast_exact_iff]
  constructor
  · intro h
    have hall := fun body (hbody : Orders insts body) =>
      Exists.elim (h body hbody) fun cost hcost => (hflags body hbody cost hcost.1).mp hcost.2
    exact ⟨fun body hbody => (hall body hbody).1, fun body hbody => (hall body hbody).2.1, (hall _ hplain).2.2⟩
  · rintro ⟨hglobal, haddr, hnonSimple⟩ body hbody
    obtain ⟨cost, hrun⟩ := hcost body
    exact ⟨cost, hrun, (hflags body hbody cost hrun).mpr ⟨hglobal body hbody, haddr body hbody, hnonSimple⟩⟩

omit [DecidableEq φ] in
/-- Without global variables and non-simple arguments a function is complex for good or not at all. -/
theorem AnalysisFound.isComplex_eq {values : List (IrValue σ)} (h : AnalysisFound M args insts values cost)
    (hglobal : ∀ value ∈ values, isGlobalVar value = false) (hnonSimple : ∀ arg ∈ args, isNonSimple arg = false) :
    cost.isComplex = cost.lasting := by
  have hlast : ∀ {marks : List Bool}, true ∉ marks → marks.getLast?.getD false = false := by
    intro marks hmarks
    cases hlast : marks.getLast? with
    | none => rfl
    | some mark => exact Bool.eq_false_iff.mpr fun htrue => hmarks (htrue ▸ List.mem_of_getLast? hlast)
  have hvalues : true ∉ values.map isGlobalVar := by
    intro hmem
    obtain ⟨value, hvalue, htrue⟩ := List.mem_map.mp hmem
    exact Bool.false_ne_true ((hglobal value hvalue).symm.trans htrue)
  have hargs : true ∉ args.filterMap argMark := by
    intro hmem
    obtain ⟨arg, harg, htrue⟩ := mem_argMarks.mp hmem
    exact Bool.false_ne_true ((hnonSimple arg harg).symm.trans htrue)
  rw [FunctionCost.isComplex_eq, h.globalVar, hlast hvalues, h.nonSimple, hlast hargs, Bool.or_false, Bool.or_false]

omit [DecidableEq φ] [Fintype σ] in
/-- Some order of the instructions always exists, that in which they stand. -/
theorem orders_plain (insts : List (IrInst φ σ)) : Orders insts (insts.map .plain) := by
  simp [Orders, OrderedInst.plain, Function.comp_def]

/-- A store of an integer. -/
def storeInt : IrInst φ σ := .store (.plain 0 .other (.int 32))

variable (rustifiedFuncs) in
/-- An argument and an instruction that take everything back that can be taken back. -/
theorem takenBack (hends : ∀ arg ∈ args, ∀ s, structOfArg arg = some s → Terminates (isStructSimple M.elements) s)
    (hnot : ¬ ((∃ arg ∈ args, lastingArg M arg = true) ∨ ∃ inst ∈ insts, lastingInst inst = true)) :
    ∃ cost, analyze M rustifiedFuncs (args ++ [.int 32])
      ((insts ++ [storeInt]).map OrderedInst.plain) = some cost ∧ cost.isComplex = false := by
  have hends' : ∀ arg ∈ args ++ [.int 32], ∀ s, structOfArg arg = some s → Terminates (isStructSimple M.elements) s := by
    intro arg harg s hs
    rcases List.mem_append.mp harg with harg | harg
    · exact hends arg harg s hs
    · obtain rfl := List.mem_singleton.mp harg
      cases hs
  have hsome : (analyze M rustifiedFuncs (args ++ [.int 32]) ((insts ++ [storeInt]).map OrderedInst.plain)).isSome :=
    analyze_ends.mpr hends'
  obtain ⟨cost, hcost⟩ := Option.isSome_iff_exists.mp hsome
  have hfound := analyze_found hcost
  rw [show _ = _ from orders_plain (insts ++ [storeInt])] at hfound
  obtain ⟨hargs, hinsts⟩ := not_or.mp hnot
  have hint : lastingArg M (.int 32 : LType σ) = false := rfl
  have hstore : lastingInst (storeInt : IrInst φ σ) = false := rfl
  have hlasting : cost.lasting = false := by
    rw [hfound.lasting, List.any_append, List.any_append, Bool.eq_false_iff.mpr fun h => hargs (List.any_eq_true.mp h),
      Bool.eq_false_iff.mpr fun h => hinsts (List.any_eq_true.mp h), List.any_cons, List.any_cons, hint, hstore]
    rfl
  have hglobal : cost.hasGlobalVar = false := by
    rw [hfound.globalVar, List.map_append, List.flatMap_append, List.map_append]
    simp [OrderedInst.plain, storeInt, getInstValues, isGlobalVar]
  have hnonSimple : cost.hasNonSimpleType = false := by
    rw [hfound.nonSimple, List.filterMap_append]
    simp [argMark]
  exact ⟨cost, hcost, by rw [FunctionCost.isComplex_eq, hlasting, hglobal, hnonSimple]; rfl⟩

/-- If the flags are right for every order of the arguments and every extension, nothing can be
lost. -/
theorem NothingLost.of_law (h : FlagsLaw M rustifiedFuncs args insts) : NothingLost M args insts := by
  obtain ⟨cost, hcost, hexact⟩ := h.exact _ (orders_plain insts)
  have hends := analyze_ends.mp (Option.isSome_of_eq_some hcost)
  obtain ⟨hglobal, haddr, hnonSimple⟩ := (flagsExact_iff hends).mp h.exact
  refine ⟨hends, hglobal, haddr, hnonSimple, fun hcomplex => ?_⟩
  by_contra hnot
  have hnow : cost.isComplex = true := by
    rw [FunctionCost.isComplex_eq]
    rcases hcomplex with hglobal | hnonSimple
    · simp [hexact.globalVar.mpr hglobal]
    · simp [hexact.nonSimple.mpr hnonSimple]
  obtain ⟨cost', hcost', hnone⟩ := takenBack rustifiedFuncs hends hnot
  have hmono := h.monotone _ _ _ _ cost cost' (List.sublist_append_left args [.int 32])
    (List.sublist_append_left insts _) (orders_plain insts) (orders_plain _) hcost hcost' hnow
  exact Bool.false_ne_true (hnone.symm.trans hmono)

/-- A function that is complex is so for good, where nothing is lost. -/
theorem NothingLost.isComplex_iff (h : NothingLost M args insts) {args' : List (LType σ)} (hargs : args'.Perm args)
    (hbody : Orders insts body) (hcost : analyze M rustifiedFuncs args' body = some cost) :
    cost.isComplex = true ↔ (∃ arg ∈ args, lastingArg M arg = true) ∨ ∃ inst ∈ insts, lastingInst inst = true := by
  have hfound := analyze_found hcost
  rw [hbody] at hfound
  have hlasting := hfound.lasting_iff
  simp only [hargs.mem_iff] at hlasting
  constructor
  · intro hcomplex
    by_contra hnot
    obtain ⟨hglobal, hnonSimple⟩ := not_or.mp (mt h.lasting hnot)
    have hsame := hfound.isComplex_eq
      (fun value hvalue => Bool.eq_false_iff.mpr fun htrue => hglobal <| by
        obtain ⟨inst, hinst, hmem⟩ := mem_visited.mp hvalue
        rw [hbody] at hinst
        exact ⟨inst, hinst, value, hmem, htrue⟩)
      fun arg harg => Bool.eq_false_iff.mpr fun htrue => hnonSimple ⟨arg, hargs.mem_iff.mp harg, htrue⟩
    exact hnot (hlasting.mp (hsame.symm.trans hcomplex))
  · intro hthere
    rw [FunctionCost.isComplex_eq, hlasting.mpr hthere]
    rfl

/-- If nothing can be lost, the flags are right for every order of the arguments and every
extension. -/
theorem FlagsLaw.of_nothingLost (h : NothingLost M args insts) : FlagsLaw M rustifiedFuncs args insts where
  exact := (flagsExact_iff h.ends).mpr ⟨h.globalVar, h.addrTaken, h.nonSimple⟩
  order args' body body' hargs hbody hbody' := by
    have hends' : ∀ arg ∈ args', ∀ s, structOfArg arg = some s → Terminates (isStructSimple M.elements) s :=
      fun arg harg => h.ends arg (hargs.mem_iff.mp harg)
    have hsome : (analyze M rustifiedFuncs args body).isSome := analyze_ends.mpr h.ends
    have hsome' : (analyze M rustifiedFuncs args' body').isSome := analyze_ends.mpr hends'
    obtain ⟨cost, hcost⟩ := Option.isSome_iff_exists.mp hsome
    obtain ⟨cost', hcost'⟩ := Option.isSome_iff_exists.mp hsome'
    rw [hcost, hcost', Option.map_some, Option.map_some, Option.some_inj, Bool.eq_iff_iff,
      h.isComplex_iff (.refl args) hbody hcost, h.isComplex_iff hargs hbody' hcost']
  monotone args' insts' body body' cost cost' hargs hinsts hbody hbody' hcost hcost' hcomplex := by
    have hfound := analyze_found hcost'
    rw [hbody'] at hfound
    have hlasting : cost'.lasting = true := by
      refine hfound.lasting_iff.mpr ?_
      rcases (h.isComplex_iff (.refl args) hbody hcost).mp hcomplex with ⟨arg, harg, hthere⟩ | ⟨inst, hinst, hthere⟩
      · exact .inl ⟨arg, hargs.mem harg, hthere⟩
      · exact .inr ⟨inst, hinsts.mem hinst, hthere⟩
    rw [FunctionCost.isComplex_eq, hlasting]
    rfl

/-- **The law holds exactly if nothing is lost**: in every order of the instructions' values the flags are exact, and
being complex depends on no order and is kept by more arguments and instructions, exactly if the analysis comes to its
end and the values that it keeps say what any value does. -/
theorem analyze_flags_iff : FlagsLaw M rustifiedFuncs args insts ↔ NothingLost M args insts :=
  ⟨.of_law, .of_nothingLost⟩

end

/-! ## A lost flag -/

/-- A module without structs. -/
def plainModule : IrModule Unit Empty where
  struct := Empty.elim
  identified := []
  name _ := "f"
  isDeclaration _ := false
  args _ := []
  body _ := []
  libcFunctionStrs := []

/-- A store of a global variable's address, and a return of what was loaded. -/
def storeThenReturn : List (IrInst Unit Empty) :=
  [.store (.plain 0 .globalVariable (.ptr (.int 32))), .ret (some (.plain 1 .loadInst (.int 32)))]

/-- **The global variable is lost.** -/
theorem storeThenReturn_not : ¬ FlagsLaw plainModule ∅ [] storeThenReturn := by
  intro h
  obtain ⟨cost, hcost, hexact⟩ := h.exact (storeThenReturn.map .plain) rfl
  have hlost : (analyze plainModule ∅ [] (storeThenReturn.map .plain)).map (·.hasGlobalVar) = some false := rfl
  rw [hcost, Option.map_some, Option.some_inj] at hlost
  have hglobal : SomeValue isGlobalVar storeThenReturn :=
    ⟨_, List.mem_cons_self, _, List.mem_singleton_self _, rfl⟩
  exact Bool.false_ne_true (hlost.symm.trans (hexact.globalVar.mpr hglobal))

end Assure
