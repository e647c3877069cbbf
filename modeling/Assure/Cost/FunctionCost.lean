import Assure.Cost.StructComplexity
import Assure.Cost.StructNames
import Mathlib.Data.List.Dedup

/-!
# The cost of a function

`analyze` goes over the arguments of a function and over its instructions and keeps a record of what it has found.
The values of an instruction are in a hash set, so an instruction comes with the order in which its values are gone
through (`OrderedInst`). `isStructSimple` need not return, so neither does the analysis of an argument.
-/

namespace Assure

open Assure.Library

/-! ## Functions -/

/-- What a value is, as far as it matters. -/
inductive ValueKind
  | globalVariable
  | loadInst
  | argument
  | callInst
  | constantPointerNull
  | other
  deriving DecidableEq

/-- **A value**; a `BitCastInst` is taken for what it is made of. -/
inductive IrValue (σ : Type)
  | plain (id : Nat) (kind : ValueKind) (type : LType σ)
  | bitCast (id : Nat) (operand : IrValue σ)
  deriving DecidableEq

/-- What a call calls; `getDirectCallee` may find no function. -/
inductive CallTarget (φ : Type)
  | indirect
  | direct (callee : Option φ)

/-- **An instruction.** An index of a `GetElementPtrInst` is a constant or not. -/
inductive IrInst (φ σ : Type)
  | store (valueOperand : IrValue σ)
  | call (target : CallTarget φ) (args : List (IrValue σ))
  | ret (returnValue : Option (IrValue σ))
  | gep (pointerType : LType σ) (indices : List (Option Int))
  | other

/-- **A module**: its struct types, and its functions with their arguments and instructions. -/
structure IrModule (φ σ : Type) where
  struct : σ → StructType σ
  identified : List σ
  name : φ → String
  isDeclaration : φ → Bool
  args : φ → List (LType σ)
  body : φ → List (IrInst φ σ)
  libcFunctionStrs : List String

/-! ## Types -/

section Types

variable {σ : Type}

/-- **`getBaseType`** -/
def getBaseType : LType σ → LType σ
  | .ptr pointee => getBaseType pointee
  | type => type

/-- `isPointerTy` -/
def isPointerTy (type : LType σ) : Bool := type.pointee?.isSome

/-- `isStructTy` -/
def isStructTy (type : LType σ) : Bool := type.struct?.isSome

/-- **`isCharPtrType`**; `CHARLEN` is 1. -/
def isCharPtrType (type : LType σ) : Bool := isPointerTy type && (getBaseType type).isInt 1

/-- **`isVoidPtrType`**; `PTRLEN` is 8. -/
def isVoidPtrType (type : LType σ) : Bool := isPointerTy type && (getBaseType type).isInt 8

/-- `isIntType` -/
def isIntType : LType σ → Bool
  | .int _ => true
  | _ => false

/-- `isCharType` -/
def isCharType (type : LType σ) : Bool := type.isInt 1

/-- `isFloatType` and `isDoubleType` -/
def isFloating (name : String) : LType σ → Bool
  | .float name' => name' == name
  | _ => false

variable [DecidableEq σ]

/-- **`isAddrTaken`** -/
def isAddrTaken : IrValue σ → Bool
  | .plain _ kind type =>
    isStructTy (getBaseType type) && isPointerTy type &&
      !([ValueKind.loadInst, .argument, .callInst, .constantPointerNull].contains kind)
  | .bitCast _ operand => isAddrTaken operand

/-- **`isGlobalVar`** -/
def isGlobalVar : IrValue σ → Bool
  | .plain _ kind _ => kind = .globalVariable
  | .bitCast _ _ => false

/-- **`getInstValues`**: each value once. -/
def getInstValues {φ : Type} : IrInst φ σ → List (IrValue σ)
  | .store valueOperand => [valueOperand]
  | .call _ args => args.dedup
  | .ret returnValue => returnValue.toList
  | _ => []

/-- **`getGepIndex`**: the second index, if it is constant. -/
def getGepIndex (indices : List (Option Int)) : Int :=
  (indices[1]?.join.map fun value => value.bmod (2 ^ 32)).getD (-1)

end Types

namespace IrModule

variable {φ σ : Type} [DecidableEq σ] (M : IrModule φ σ)

/-- The members of a struct. -/
def elements (s : σ) : List (LType σ) := (M.struct s).fields

/-- **`isRecursiveStruct`** -/
def isRecursiveStruct (stType : σ) : Bool := (M.elements stType).any fun element => getBaseType element = .struct stType

/-- `collectionStTypes`, as `classifyStructTypes` fills it. -/
def collectionStTypes : List σ := M.identified.filter M.isRecursiveStruct

omit [DecidableEq σ] in
/-- `multiOwnerStTypes`: nothing is put in. -/
def multiOwnerStTypes : List σ := []

/-- **`isUnion`** of a struct. -/
def isUnion (s : σ) : Bool := cleanStructName (M.struct s).name.toList = "union.anon".toList

/-- **What `isStructSimple` returns**, nothing where it does not return. -/
def structSimple [Fintype σ] (s : σ) : Option StructComplication :=
  approx (isStructSimple M.elements) (Fintype.card σ) s

/-- The search with a bound on the depth gives the result of the recursion itself, because a
recursion over finitely many structs that goes deeper than their number never returns. -/
theorem structSimple_eq_some [Fintype σ] {s : σ} {result : StructComplication} :
    M.structSimple s = some result ↔ Returns (isStructSimple M.elements) s result :=
  approx_card determined_isStructSimple

end IrModule

/-! ## The analysis -/

/-- **`FunctionCostAnalysis`**: how many calls of each kind there are, and the flags. -/
structure FunctionCost where
  hasStructArg : Bool := false
  indCallInsts : Nat := 0
  internalCallInsts : Nat := 0
  libraryCallInsts : Nat := 0
  libcCallInsts : Nat := 0
  isCollectionRelated : Bool := false
  isStringRelated : Bool := false
  hasCharPtrArg : Bool := false
  hasAddrTaken : Bool := false
  hasVoidPtrArg : Bool := false
  hasGlobalVar : Bool := false
  hasCollectionStruct : Bool := false
  hasMultiOwnerStruct : Bool := false
  hasUnion : Bool := false
  hasNonSimpleType : Bool := false
  isLeaf : Bool := true
  structComplexityMax : StructComplication := .t_simple
  hasDoublePointer : Bool := false
  hasNonSimplePointer : Bool := false
  deriving DecidableEq

/-- **`isComplex_`**, as `analyze` sets it in the end. -/
def FunctionCost.isComplex (cost : FunctionCost) : Bool :=
  cost.isCollectionRelated || cost.isStringRelated || cost.hasCollectionStruct || cost.hasMultiOwnerStruct ||
    cost.hasUnion || cost.hasCharPtrArg || cost.hasVoidPtrArg || cost.hasGlobalVar || cost.hasDoublePointer ||
    !cost.isLeaf || decide (2 ≤ cost.structComplexityMax.toNat) || cost.hasNonSimpleType || cost.hasNonSimplePointer

section Analysis

variable {φ σ : Type} [DecidableEq φ] [DecidableEq σ] [Fintype σ] (M : IrModule φ σ)

/-- The base type of an argument in `analyzeArgs`. -/
def analyzeBaseType (cost : FunctionCost) (argType : LType σ) : FunctionCost :=
  match argType with
  | .struct s =>
    { cost with
      hasCollectionStruct := cost.hasCollectionStruct || M.collectionStTypes.contains s
      hasMultiOwnerStruct := cost.hasMultiOwnerStruct || IrModule.multiOwnerStTypes.contains s
      hasUnion := cost.hasUnion || M.isUnion s
      hasStructArg := true }
  | _ => cost

/-- **One argument in `analyzeArgs`.** -/
def analyzeArg (cost : FunctionCost) (origArgType : LType σ) : Option FunctionCost :=
  let cost := analyzeBaseType M cost (getBaseType origArgType)
  match origArgType with
  | .ptr (.ptr _) => some { cost with hasDoublePointer := true }
  | .ptr (.struct s) =>
    (M.structSimple s).map fun out =>
      { cost with structComplexityMax := (cost.structComplexityMax.raise .t_hasptr).raise out }
  | .ptr _ =>
    if isCharPtrType origArgType then some { cost with hasCharPtrArg := true }
    else if isVoidPtrType origArgType then some { cost with hasVoidPtrArg := true }
    else if !isIntType origArgType || isCharType origArgType || isFloating "float" origArgType ||
        isFloating "double" origArgType then
      some { cost with hasNonSimpleType := true }
    else some { cost with hasNonSimplePointer := true }
  | .struct s => (M.structSimple s).map fun out =>
      { cost with structComplexityMax := cost.structComplexityMax.raise out }
  | _ => some { cost with hasNonSimpleType := false }

/-- **`analyzeArgs`** -/
def analyzeArgs (args : List (LType σ)) : Option FunctionCost := args.foldlM (analyzeArg M) {}

/-- **`analyzeCall`** -/
def analyzeCall (rustifiedFuncs : Finset φ) (cost : FunctionCost) : CallTarget φ → FunctionCost
  | .indirect => { cost with indCallInsts := cost.indCallInsts + 1 }
  | .direct none => cost
  | .direct (some callee) =>
    if ¬ M.isDeclaration callee then
      if callee ∉ rustifiedFuncs then { cost with internalCallInsts := cost.internalCallInsts + 1 } else cost
    else if ¬ M.libcFunctionStrs.contains (M.name callee) then
      { cost with libraryCallInsts := cost.libraryCallInsts + 1 }
    else { cost with libcCallInsts := cost.libcCallInsts + 1 }

/-- **`analyzeGepInst`** -/
def analyzeGepInst (cost : FunctionCost) (gepPtrType : LType σ) (indices : List (Option Int)) : FunctionCost :=
  if !isCharPtrType gepPtrType && !isVoidPtrType gepPtrType then cost
  else if getGepIndex indices = -1 then { cost with isStringRelated := true }
  else cost

/-- **An instruction with the order in which its values are gone through.** -/
structure OrderedInst (φ σ : Type) [DecidableEq σ] where
  inst : IrInst φ σ
  values : List (IrValue σ)
  perm : values.Perm (getInstValues inst)

/-- The loop of `analyzeInst` over the values. -/
def analyzeValue (cost : FunctionCost) (value : IrValue σ) : FunctionCost :=
  { cost with hasAddrTaken := isAddrTaken value, hasGlobalVar := isGlobalVar value }

/-- **`analyzeInst`** -/
def analyzeInst (rustifiedFuncs : Finset φ) (cost : FunctionCost) (inst : OrderedInst φ σ) : FunctionCost :=
  let cost := inst.values.foldl analyzeValue cost
  match inst.inst with
  | .call target _ => analyzeCall M rustifiedFuncs { cost with isLeaf := false } target
  | .gep gepPtrType indices => analyzeGepInst cost gepPtrType indices
  | _ => cost

/-- **`analyze`** -/
def analyze (rustifiedFuncs : Finset φ) (args : List (LType σ)) (body : List (OrderedInst φ σ)) : Option FunctionCost :=
  (analyzeArgs M args).map fun cost => body.foldl (analyzeInst M rustifiedFuncs) { cost with isLeaf := true }

end Analysis

end Assure
