import Assure.Harness.Initialize
import Mathlib.Data.Finset.Erase

/-!
# The dump

After the call of the target function the harness prints what the arguments and the result lead to.
`printNestedKleeExprs` is the body of that recursion over types; it carries a label that is printed and a
path, under which the walk before the call has recorded the buffers of pointers (`Buffer`).

`visited_structs` is not put back where a field turns out to be a function pointer, so a call returns what
it leaves there.
-/

namespace Assure

open Assure.Library

/-- A step to a place: an argument or the result, a step into an object, or to the object whose address is
there. -/
inductive Access (σ : Type)
  | argument (i : Nat)
  | result
  | hop (h : Hop σ)
  | load
  deriving DecidableEq

/-- **A place in the harness**, from an argument on. -/
abbrev Place (σ : Type) := List (Access σ)

/-- **A recorded buffer**: what it is a buffer of, and the place of the pointer it was made for. -/
structure Buffer (σ : Type) where
  target : LType σ
  slot : Place σ
  deriving DecidableEq

/-- **What the dump looks at**: `leaf_buffers`, `boundary_nodes`, the Rust types of the arguments by label,
and the fields that the target does not write. -/
structure DumpContext (σ : Type) where
  leafBuffers : String → Option (Buffer σ)
  boundaryNodes : List String
  rustArgument : String → Option String
  isFieldUnused : σ → Nat → Bool

/-- **What is printed**: the value with a label, read through a pointer if that is not null (and the length
before it not zero), the line `[exclude]` with a reason and a label, and the buffer that is taken for a slot. -/
inductive Print (σ : Type)
  | value (label : String)
  | read (label : String) (hasLength : Bool)
  | excluded (reason label : String)
  | taken (path : String) (slot : Place σ) (buffer : Buffer σ)
  deriving DecidableEq

/-- A call of `print_nested_klee_exprs`: for a value of a type, which points to a place or was loaded from
it. -/
structure DumpCall (σ : Type) where
  visited : Finset σ
  type : LType σ
  label : String
  path : String
  place : Place σ
  hasLength : Bool

/-- What a call leaves in `visited_structs`, and what it prints. -/
abbrev Dumped (σ : Type) := Finset σ × List (Print σ)

/-- The number of raw pointers in a Rust type. -/
def pointerLevels (rustType : String) : Nat :=
  (rustType.toList.tails.countP fun rest => "*mut".toList.isPrefixOf rest) +
    rustType.toList.tails.countP fun rest => "*const".toList.isPrefixOf rest

/-- The pointer type of an argument: with the level that is missing of `i8*`. -/
def recoverLevel {σ : Type} (rustType : Option String) (type : LType σ) : LType σ :=
  match type with
  | .ptr (.int 8) => if 2 ≤ (rustType.map pointerLevels).getD 0 then .ptr (.ptr (.int 8)) else type
  | type => type

/-- The loads through pointers to pointers, with their marks on the label. -/
def loadPointers {σ : Type} : LType σ → String → Place σ → LType σ × String × Place σ
  | .ptr (.ptr pointee), label, place =>
    loadPointers (.ptr pointee) ("*(" ++ label ++ ")") (place ++ [.load])
  | type, label, place => (type, label, place)

/-- A pointer to an array without a length points to its element. -/
def decayed {σ : Type} : LType σ → LType σ
  | .ptr (.array 0 element) => .ptr element
  | type => type

/-- A pointer to something that is no struct. -/
def LType.isLeafPtr {σ : Type} : LType σ → Bool
  | .ptr (.struct _) => false
  | .ptr _ => true
  | _ => false

/-- `isa<PointerType> || isa<StructType> || isa<ArrayType>` -/
def LType.isNested {σ : Type} : LType σ → Bool
  | .ptr _ => true
  | .struct _ => true
  | .array _ _ => true
  | _ => false

section

variable {σ : Type} [DecidableEq σ] (M : Module σ) (D : DumpContext σ)

/-- **`under_boundary`** -/
def DumpContext.underBoundary (path : String) : Bool :=
  D.boundaryNodes.any fun node => path == node || (node ++ ".").toList.isPrefixOf path.toList

/-- The label of a buffer that is taken for a field. -/
def takenLabel (type target : LType σ) (label : String) : String :=
  match type with
  | .ptr pointee => if pointee = target then "*(" ++ label ++ ")" else label
  | _ => ""

/-- What a walk over fields prints, one field after the other. -/
def printFields (print : Finset σ → Nat → LType σ → Option (Dumped σ)) :
    Finset σ → Nat → List (LType σ) → Option (Dumped σ)
  | visited, _, [] => some (visited, [])
  | visited, i, type :: types =>
    (print visited i type).bind fun first =>
      (printFields print first.1 (i + 1) types).map fun rest => (rest.1, first.2 ++ rest.2)

section

variable (call : DumpCall σ → Option (Dumped σ))

/-- A buffer that is taken for a slot, and what it holds. -/
def printTaken (visited : Finset σ) (buffer : Buffer σ) (label path : String) (slot : Place σ)
    (hasLength : Bool) : Option (Dumped σ) :=
  (call ⟨visited, .ptr buffer.target, label, path, buffer.slot ++ [.load], hasLength⟩).map fun done =>
    (done.1, .taken path slot buffer :: done.2)

/-- A field of a struct value. -/
def printValueField (s : σ) (label path : String) (place : Place σ) (visited : Finset σ) (i : Nat)
    (type : LType σ) : Option (Dumped σ) :=
  let fieldLabel := fieldName label i
  let fieldPath := fieldName path i
  let slot := place ++ [.hop (.field s i)]
  let isFat := i == 0 && match M.fields s with
    | [.ptr _, .int 64] => true
    | _ => false
  if type.isNested then
    let isLeaf := type.isLeafPtr && label != "ret_value"
    match (if isLeaf then D.leafBuffers fieldPath else none) with
    | some buffer =>
      let label := match type.pointee? with
        | some pointee => takenLabel pointee buffer.target fieldLabel
        | none => ""
      printTaken call visited buffer label fieldPath slot isFat
    | none =>
      if isLeaf && D.underBoundary path then some (visited, [.excluded "leaf_unbound" fieldLabel])
      else
        let place := if type.pointee?.isSome then slot ++ [.load] else slot
        call ⟨visited, type, fieldLabel, fieldPath, place, isFat⟩
  else some (visited, [.value fieldLabel])

/-- A field of a struct behind a pointer that is not passed over. -/
def printConverted (s : σ) (label path : String) (place : Place σ) (hasLength : Bool)
    (visited : Finset σ) (i : Nat) (type converted : LType σ) : Option (Dumped σ) :=
  let fieldLabel := fieldName label i
  let fieldPath := fieldName path i
  let slot := place ++ [.hop (.field s i)]
  let isArray := match type with
    | .array _ _ => true
    | _ => false
  let isLeaf := !isArray && match converted with
    | .struct _ => false
    | .ptr (.struct _) => false
    | _ => true
  match (if isLeaf then D.leafBuffers fieldPath else none) with
  | some buffer =>
    printTaken call visited buffer (takenLabel type buffer.target fieldLabel) fieldPath slot hasLength
  | none =>
    if isLeaf && D.underBoundary path then some (visited, [.excluded "leaf_unbound" fieldLabel])
    else call ⟨visited, .ptr converted, fieldLabel, fieldPath, slot, hasLength⟩

/-- **A field of a struct behind a pointer.** -/
def printField (s : σ) (label path : String) (place : Place σ) (hasLength : Bool)
    (visited : Finset σ) (i : Nat) (type : LType σ) : Option (Dumped σ) :=
  if !"ret_value".toList.isPrefixOf label.toList && D.isFieldUnused s i then
    some (visited, [.excluded "unwritten_field" (fieldName label i)])
  else
    match type with
    | .ptr pointee =>
      if M.isChain s i pointee ∧ s ∈ visited then some (visited, [])
      else
        let inside := if M.isChain s i pointee then insert s visited else visited
        match M.getTargetType pointee (M.name s) i with
        | none => some (inside, [])
        | some .function => some (inside, [])
        | some target =>
          (printConverted D call s label path place hasLength inside i type (.ptr target)).map fun done =>
            (if M.isChain s i pointee then done.1.erase s else done.1, done.2)
    | .struct _ | .array _ _ =>
      match M.getTargetType type (M.name s) i with
      | none => some (visited, [])
      | some converted => printConverted D call s label path place hasLength visited i type converted
    | _ => some (visited, [.value ("*(" ++ fieldName label i ++ ")")])

/-- **`print_nested_klee_exprs`** -/
def printNestedKleeExprs (c : DumpCall σ) : Option (Dumped σ) :=
  match c.type with
  | .struct s =>
    printFields (printValueField M D call s c.label c.path c.place) c.visited 0 (M.fields s)
  | .ptr pointee =>
    if pointee.struct?.any M.isSystemStruct then some (c.visited, [.excluded "system_type" c.label])
    else
      let type := if c.label == c.path then recoverLevel (D.rustArgument c.label) c.type else c.type
      let (type, label, place) := loadPointers type c.label c.place
      match decayed type with
      | .ptr .function => some (c.visited, [.excluded "fnptr_field_ir" label])
      | .ptr (.struct s) =>
        printFields (printField M D call s label c.path place c.hasLength) c.visited 0 (M.fields s)
      | .ptr (.array _ element) =>
        if element.isNested then
          call ⟨c.visited, .ptr element, label ++ "[0]", c.path ++ "[0]", place ++ [.hop .first],
            c.hasLength⟩
        else some (c.visited, [.value ("*(" ++ label ++ ")")])
      | _ => some (c.visited, [.read label c.hasLength])
  | _ => some (c.visited, [.value c.label])

end

end

end Assure
