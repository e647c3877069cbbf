import Assure.Harness.ModuleTypes
import Assure.Library.Recursion
import Assure.Library.RoseTree

/-!
# The objects of the harness

For each argument the harness makes an object of the type, lets KLEE mark it symbolic and gives its
pointers objects to point to, and so on. `Action` is one thing it does to an object, in the order it does
them; below the making of an object stands what is done to that one.

`initializeInnerObjects` is the body of the recursion over types. The structs whose pointers are being
followed are `visited`: at a struct that is one of them the walk ends, with NULL for its struct pointers
(`nullBoundaryPointers`).
-/

namespace Assure

open Assure.Library

/-- A step into an object: to a field of a struct or to the first element of an array. -/
inductive Hop (σ : Type)
  | field (s : σ) (i : Nat)
  | first
  deriving DecidableEq

/-- **A place in an object.** -/
abbrev Slot (σ : Type) := List (Hop σ)

/-- **What the harness does to an object**: put the address of a new one into a slot, which is made for a
type, is marked symbolic or not and may be recorded under a name, put a copy of a new one there, put NULL
there, bound the number there, or stop at a struct with a field that leads back. `vecElement` says that a
slot is a `Vec` with an element of its own. -/
inductive Action (σ : Type)
  | object (slot : Slot σ) (target : LType σ) (marked : Bool) (recorded : Option String)
  | copied (slot : Slot σ) (target : LType σ) (marked : Bool)
  | null (slot : Slot σ)
  | assumeLe (slot : Slot σ) (bound : Nat)
  | boundary (slot : Slot σ) (s : σ) (start : Nat) (name : String)
  | vecElement (slot : Slot σ) (vec raw : σ)
  deriving DecidableEq

/-- **What is done to an object**, with what is done to the new objects. -/
abbrev Actions (σ : Type) := List (RoseTree (Action σ))

/-- A call of `initialize_inner_objects` with the structs in `visited_structs`: for a place in an object,
of a type and with a name. -/
structure InitCall (σ : Type) where
  visited : Finset σ
  type : LType σ
  slot : Slot σ
  name : String

/-- `argument_name + ".field_" + std::to_string(i)` -/
def fieldName (name : String) (i : Nat) : String := name ++ ".field_" ++ Nat.repr i

/-- `SLICE_BUF_ELEMS`, and the length of every buffer. -/
def sliceBufElems : Nat := 100

section

variable {σ : Type} [DecidableEq σ] (M : Module σ)

/-! ## Objects -/

/-- The type of the object that `create_object_and_mark_symbolic` makes for a type. -/
def objectType : LType σ → LType σ
  | .int bits => .array sliceBufElems (.int bits)
  | .struct s => if M.isSystemStruct s && M.allocSize s == 0 then .array 2 (.int 8) else .struct s
  | .array 0 element => .array sliceBufElems element
  | type => type

/-- Whether the object for a type is marked symbolic, if it is not to be ignored. -/
def isMarked (type : LType σ) (needIgnore : Bool) : Bool :=
  !needIgnore && type.pointee?.isNone &&
    (type.struct?.map fun s => !M.isSystemStruct s && M.name s != "alloc::string::String").getD true

/-- The struct inside a `Vec` that has the data pointer. -/
def vecRaw (vec : σ) : Option σ :=
  match M.fields vec with
  | [.struct raw, .int 64] =>
    match M.fields raw with
    | .ptr (.int 8) :: _ => some raw
    | _ => none
  | _ => none

/-- The actions for each field, one field after the other. -/
def eachField (action : Nat → LType σ → Option (Actions σ)) : Nat → List (LType σ) → Option (Actions σ)
  | _, [] => some []
  | i, type :: types =>
    (action i type).bind fun actions => (eachField action (i + 1) types).map (actions ++ ·)

/-- **`constrain_slice_len`**, for structs nested so deep. -/
def constrainSliceLen : Nat → σ → Slot σ → Actions σ
  | 0, _, _ => []
  | depth + 1, s, slot =>
    (M.fields s).zipIdx.flatMap fun field =>
      if field.1.isSliceDataPtr && ((M.fields s)[field.2 + 1]?.any fun type => type.isInt 64) then
        [.node (.assumeLe (slot ++ [Hop.field s (field.2 + 1)]) sliceBufElems) []]
      else
        match field.1 with
        | .struct nested => constrainSliceLen depth nested (slot ++ [Hop.field s field.2])
        | _ => []

section

variable (call : InitCall σ → Option (Actions σ)) (visited : Finset σ)

/-- **`initialize_inner_pointer`** -/
def initializeInnerPointer (slot : Slot σ) (pointee : LType σ) (structName : String) (index : Nat)
    (name : String) (fromStruct : Bool) : Option (Actions σ) :=
  if pointee = .function then some []
  else
    match M.getTargetType pointee structName index with
    | none => some []
    | some target =>
      let recorded := if fromStruct && (target ≠ pointee || target.struct?.isNone) then some name else none
      (call ⟨visited, objectType M target, [], name⟩).map fun actions =>
        [.node (.object slot target (isMarked M target false) recorded) actions]

/-- **`initialize_inner_struct`**: in place, where there is something to initialize. -/
def initializeInnerStruct (slot : Slot σ) (nested : σ) (structName : String) (index : Nat)
    (name : String) : Option (Actions σ) :=
  match M.getTargetType (.struct nested) structName index with
  | none => some []
  | some target =>
    if target.struct?.any fun s => M.allocSize s != 0 && !M.isSystemStruct s then
      call ⟨visited, target, slot, name⟩
    else
      (call ⟨visited, objectType M target, [], name⟩).map fun actions =>
        [.node (.copied slot target (isMarked M target false)) actions]

/-- **`bind_vec_element`**: the data pointer gets an object with the name of the `Vec`. -/
def bindVecElement (slot : Slot σ) (vec raw element : σ) (name : String) : Option (Actions σ) :=
  (initializeInnerPointer M call visited (slot ++ [Hop.field vec 0, Hop.field raw 0]) (.struct element) "" 0
    name true).map fun actions => .node (.vecElement slot vec raw) [] :: actions

/-- A nested struct: a `Vec` with a struct for its elements, or any other. -/
def initializeNested (slot : Slot σ) (nested : σ) (structName : String) (index : Nat) (name : String) :
    Option (Actions σ) :=
  match M.checkStructVecElem structName index, vecRaw M nested with
  | some element, some raw => bindVecElement M call visited slot nested raw element name
  | _, _ => initializeInnerStruct M call visited slot nested structName index name

/-- The struct that `null_boundary_pointers` takes a nested one for. -/
def boundaryTarget (structName : String) (index : Nat) (nested : σ) : σ :=
  if structName = "" then nested
  else
    match (M.getTargetType (.struct nested) structName index).bind LType.struct? with
    | some target => if M.allocSize target ≤ M.allocSize nested then target else nested
    | none => nested

/-- **`null_boundary_pointers`**, for structs nested so deep. -/
def nullBoundaryPointers : Nat → σ → Slot σ → Nat → String → Option (Actions σ)
  | 0, _, _, _, _ => some []
  | depth + 1, s, slot, start, name =>
    eachField (fun j type =>
      match type with
      | .ptr pointee =>
        if pointee = .function || (M.name s != "" && M.checkStructFunctionPtr (M.name s) j) then some []
        else if M.isChain s j pointee then
          some [.node (.null (slot ++ [Hop.field s j])) []]
        else
          initializeInnerPointer M call visited (slot ++ [Hop.field s j]) pointee (M.name s) j
            (fieldName name j) true
      | .struct nested =>
        if M.isSystemStruct nested then some []
        else
          nullBoundaryPointers depth (boundaryTarget M (M.name s) j nested) (slot ++ [Hop.field s j]) 0
            (fieldName name j)
      | _ => some []) start ((M.fields s).drop start)

/-! ## The walk -/

/-- The fields of a struct from one on. At a struct pointer of a visited struct the walk ends. -/
def initializeFields (s : σ) (slot : Slot σ) (name : String) : Nat → List (LType σ) → Option (Actions σ)
  | _, [] => some (constrainSliceLen M 4 s slot)
  | i, .ptr pointee :: types =>
    if M.isChain s i pointee ∧ s ∈ visited then
      (nullBoundaryPointers M call visited 5 s slot i name).map (.node (.boundary slot s i name) [] :: ·)
    else
      (initializeInnerPointer M call (if M.isChain s i pointee then insert s visited else visited)
        (slot ++ [Hop.field s i]) pointee (M.name s) i (fieldName name i) true).bind fun actions =>
          (initializeFields s slot name (i + 1) types).map (actions ++ ·)
  | i, .struct nested :: types =>
    (initializeNested M call visited (slot ++ [Hop.field s i]) nested (M.name s) i
      (fieldName name i)).bind fun actions =>
        (initializeFields s slot name (i + 1) types).map (actions ++ ·)
  | i, _ :: types => initializeFields s slot name (i + 1) types

/-- The walk at a struct. -/
def initializeStruct (s : σ) (slot : Slot σ) (name : String) : Option (Actions σ) :=
  if M.isSystemStruct s then some []
  else initializeFields M call visited s slot name 0 (M.fields s)

end

/-- **`initialize_inner_objects`**: of an array the first element, if it is a struct. -/
def initializeInnerObjects (call : InitCall σ → Option (Actions σ)) (c : InitCall σ) :
    Option (Actions σ) :=
  match c.type with
  | .ptr pointee => initializeInnerPointer M call c.visited c.slot pointee "" 0 c.name false
  | .array size (.struct s) =>
    if size = 0 then some [] else initializeStruct M call c.visited s (c.slot ++ [Hop.first]) c.name
  | .struct s => initializeStruct M call c.visited s c.slot c.name
  | _ => some []

end

end Assure
