import Assure.Harness.RustTypes
import Mathlib.Data.Finset.Insert
import Mathlib.Order.WellFounded

/-!
# The types of a module

The pass builds its harness from the LLVM types of the module and from `struct_map.json`, where the Rust
fields have their types. Structs are known by their identity, so that types can refer to them in any way
a module declares them.

`getTargetType` is the type that a field is taken for, and `isChain` says that a pointer field leads to a
struct, as the `i8*` of a `Box` does.
-/

namespace Assure

/-- **An LLVM type** over struct types `σ`. -/
inductive LType (σ : Type)
  | int (bits : Nat)
  | float (name : String)
  | function
  | ptr (pointee : LType σ)
  | array (size : Nat) (element : LType σ)
  | struct (s : σ)
  deriving DecidableEq

namespace LType

variable {σ : Type}

/-- `isa<StructType>` -/
def struct? : LType σ → Option σ
  | .struct s => some s
  | _ => none

/-- `isa<PointerType>` -/
def pointee? : LType σ → Option (LType σ)
  | .ptr t => some t
  | _ => none

/-- `is_slice_data_ptr` -/
def isSliceDataPtr : LType σ → Bool
  | .ptr (.array 0 _) => true
  | _ => false

/-- `isIntegerTy(bits)` -/
def isInt (bits : Nat) : LType σ → Bool
  | .int b => b == bits
  | _ => false

end LType

/-- **A struct type**; a literal one has no name. -/
structure StructType (σ : Type) where
  name : String
  fields : List (LType σ)

/-- **A module**: its struct types with their sizes, none of them inside itself, and `struct_map` by name
and field index. The pass declares `cstr_struct` itself. -/
structure Module (σ : Type) where
  struct : σ → StructType σ
  allocSize : σ → Nat
  byName : String → Option σ
  structMap : String → Nat → Option String
  cstrStruct : σ
  sized : WellFounded fun inner outer => .struct inner ∈ (struct outer).fields
  name_of_byName : ∀ name s, byName name = some s → (struct s).name = name
  struct_cstr : struct cstrStruct = ⟨"cstr_struct", [.array 100 (.int 8)]⟩
  size_cstr : allocSize cstrStruct = 100

namespace Module

variable {σ : Type} [DecidableEq σ] (M : Module σ)

/-- The name of a struct, empty for a literal one. -/
def name (s : σ) : String := (M.struct s).name

/-- The fields of a struct. -/
def fields (s : σ) : List (LType σ) := (M.struct s).fields

/-- **`is_system_struct`** of a struct: by its name, or because there is nothing in it. -/
def isSystemStruct (s : σ) : Bool :=
  let name := M.name s
  name == "struct._IO_FILE" || "struct._IO_FILE.".toList.isPrefixOf name.toList ||
    name == "libc::unix::FILE" || "::FILE".toList.isSuffixOf name.toList || M.allocSize s == 0

/-- The struct with a Rust name, in the module or at its end. -/
def structNamed (name : String) : Option σ :=
  ((M.byName name).or ((lastSegment name).bind M.byName)).filter fun s => !M.isSystemStruct s

/-- The Rust type of a field. -/
def rustType (structName : String) (index : Nat) : Option String :=
  if structName = "" then none else M.structMap structName index

/-- **`check_struct_box_ptr`** -/
def checkStructBoxPtr (structName : String) (index : Nat) : Option σ :=
  ((M.rustType structName index).bind boxedName).bind M.structNamed

/-- **`check_struct_vec_elem`** -/
def checkStructVecElem (structName : String) (index : Nat) : Option σ :=
  ((M.rustType structName index).bind vecElemName).bind M.structNamed

/-- **`check_struct_function_ptr`** -/
def checkStructFunctionPtr (structName : String) (index : Nat) : Bool :=
  ((M.structMap structName index).map isFunctionPtr).getD false

/-- The standard types that stand for others, whatever holds them. -/
def standardTarget (s : σ) : Option (LType σ) :=
  let name := M.name s
  if name = "core::option::Option<alloc::vec::Vec<u8>>" then
    some (.struct ((M.byName "alloc::vec::Vec<u8>").getD s))
  else if name = "core::option::Option<alloc::string::String>" then
    some (.struct ((M.byName "alloc::string::String").getD s))
  else if M.byName "core::ffi::c_str::CStr" = some s then some (.struct M.cstrStruct)
  else none

/-- **`get_target_type`**: the type of a field of a struct, `none` for a function pointer. -/
def getTargetType (type : LType σ) (structName : String) (index : Nat) : Option (LType σ) :=
  match type.struct?.bind M.standardTarget with
  | some target => some target
  | none =>
    if structName = "" then some type
    else if M.checkStructFunctionPtr structName index then none
    else if type.struct?.isSome then some type
    else some (((M.checkStructBoxPtr structName index).map .struct).getD type)

/-- **A pointer field leads to a struct**: the one in a `Box`, or else LLVM's. -/
def isChain (s : σ) (i : Nat) (pointee : LType σ) : Bool :=
  (M.checkStructBoxPtr (M.name s) i).isSome || pointee.struct?.isSome

end Module

end Assure
