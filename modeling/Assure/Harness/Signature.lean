import Assure.Harness.Dump

/-!
# The harness of a function

For each argument of the target function the harness makes an object of the type that
`get_argument_type` gives and passes what is in it; after the call it dumps the arguments and the result.
`get_argument_type` looks into the body of the function and at the Rust types of the arguments, so what it
gives is part of a `Signature`.

Between the two walks stand the buffers and the boundary nodes that the first one has recorded.
-/

namespace Assure

open Assure.Library

/-- **An argument**: its type, the type that its object is made for (none if it is a function pointer), and
whether the result is returned in it. -/
structure Argument (σ : Type) where
  type : LType σ
  target : Option (LType σ)
  isSret : Bool

/-- **What `get_argument_type` gives**: nothing for a function pointer, the type itself, or else another pointer for a
pointer and another struct for a struct. -/
def Argument.Typed {σ : Type} (argument : Argument σ) : Prop :=
  ∀ target, argument.target = some target → target = argument.type ∨
    target.pointee?.isSome = true ∧ argument.type.pointee?.isSome = true ∨
      target.struct?.isSome = true ∧ argument.type.struct?.isSome = true

/-- **The target function.** -/
structure Signature (σ : Type) where
  arguments : List (Argument σ)
  result : Option (LType σ)

section

variable {σ : Type} [DecidableEq σ] (M : Module σ)

/-- The arguments before one that the result is returned in. -/
def sretBefore (arguments : List (Argument σ)) (i : Nat) : Nat :=
  (arguments.take i).countP Argument.isSret

/-- The name of the object of an argument. -/
def argumentName (arguments : List (Argument σ)) (i : Nat) (argument : Argument σ) : String :=
  if argument.isSret then "return_value"
  else "arg_value_" ++ Nat.repr (if sretBefore arguments i = 0 then i else i - 1)

/-- The label of an argument in the dump. -/
def dumpLabel (arguments : List (Argument σ)) (i : Nat) (argument : Argument σ) : String :=
  if argument.isSret then "ret_value" else "arg_value_" ++ Nat.repr (i - sretBefore arguments i)

/-! ## Before the call -/

/-- **The object of an argument**, if it is no function. -/
def argumentObject (call : InitCall σ → Option (Actions σ)) (name : String) (argument : Argument σ) :
    Option (Actions σ) :=
  let target := argument.target.getD argument.type
  if target = .ptr .function then some []
  else
    (call ⟨∅, objectType M target, [], name⟩).map fun actions =>
      [.node (.object [] target (isMarked M target argument.target.isNone) none) actions]

/-- The objects of the arguments, one after the other. -/
def argumentObjects (call : InitCall σ → Option (Actions σ)) (arguments : List (Argument σ)) :
    Nat → List (Argument σ) → Option (List (Actions σ))
  | _, [] => some []
  | i, argument :: rest =>
    (argumentObject M call (argumentName arguments i argument) argument).bind fun actions =>
      (argumentObjects call arguments (i + 1) rest).map (actions :: ·)

mutual

/-- The buffers that are recorded below a place. -/
def recordedAt (place : Place σ) : RoseTree (Action σ) → List (String × Buffer σ)
  | .node (.object slot target _ recorded) actions =>
    let slot := place ++ slot.map .hop
    recordedBelow (slot ++ [.load]) actions ++ (recorded.map fun name => (name, ⟨target, slot⟩)).toList
  | .node _ _ => []

/-- The same for several actions. -/
def recordedBelow (place : Place σ) : Actions σ → List (String × Buffer σ)
  | [] => []
  | action :: actions => recordedAt place action ++ recordedBelow place actions

end

/-- The buffers of an argument. -/
def recordedOf (i : Nat) : Actions σ → List (String × Buffer σ)
  | [.node _ actions] => recordedBelow [.argument i] actions
  | _ => []

/-- **`leaf_buffers`**: the buffer that was recorded last under a name. -/
def leafBuffers (objects : List (Actions σ)) (name : String) : Option (Buffer σ) :=
  ((objects.zipIdx.flatMap fun object => recordedOf object.2 object.1).reverse.find? fun entry =>
    entry.1 = name).map Prod.snd

/-- **`boundary_nodes`** -/
def boundaryNodes (objects : List (Actions σ)) : List String :=
  (objects.flatten.flatMap RoseTree.labels).filterMap fun
    | .boundary _ _ _ name => some name
    | _ => none

/-! ## After the call -/

/-- **The dump of an argument**, if it is no function and no pointer to a system struct. -/
def dumpArgument (call : DumpCall σ → Option (Dumped σ)) (label : String) (i : Nat) (argument : Argument σ)
    (visited : Finset σ) : Option (Dumped σ) :=
  let name := "arg#" ++ Nat.repr i
  if argument.type.pointee?.any fun pointee => pointee.struct?.any M.isSystemStruct then
    some (visited, [.excluded "system_type" name])
  else
    match argument.target, argument.type with
    | none, .ptr .function => some (visited, [.excluded "fnptr_arg_ir" name])
    | some (.ptr .function), _ => some (visited, [.excluded "fnptr_arg_ir" name])
    | none, _ => some (visited, [.excluded "fnptr_by_typemap" name])
    | some target, _ =>
      let place := if target.pointee?.isSome then [.argument i, .load] else [.argument i]
      call ⟨visited, target, label, label, place, false⟩

/-- The dump of the arguments, one after the other. -/
def dumpArguments (call : DumpCall σ → Option (Dumped σ)) (arguments : List (Argument σ)) :
    Finset σ → Nat → List (Argument σ) → Option (Dumped σ)
  | visited, _, [] => some (visited, [])
  | visited, i, argument :: rest =>
    (dumpArgument M call (dumpLabel arguments i argument) i argument visited).bind fun first =>
      (dumpArguments call arguments first.1 (i + 1) rest).map fun done => (done.1, first.2 ++ done.2)

/-- The dump of the result. -/
def dumpResult (call : DumpCall σ → Option (Dumped σ)) (result : Option (LType σ)) (visited : Finset σ) :
    Option (Dumped σ) :=
  match result with
  | none => some (visited, [])
  | some type => call ⟨visited, type, "ret_value", "ret_value",
      if type.pointee?.isSome then [.result, .load] else [.result], false⟩

/-- What the dump looks at after a walk. -/
def dumpContext (objects : List (Actions σ)) (rustArgument : String → Option String)
    (isFieldUnused : σ → Nat → Bool) : DumpContext σ :=
  ⟨leafBuffers objects, boundaryNodes objects, rustArgument, isFieldUnused⟩

/-- **The harness**, with calls nested so deep: the objects of the arguments and what is printed. -/
def harness (depth : Nat) (signature : Signature σ) (rustArgument : String → Option String)
    (isFieldUnused : σ → Nat → Bool) : Option (List (Actions σ) × List (Print σ)) :=
  (argumentObjects M (approx (initializeInnerObjects M) depth) signature.arguments 0
    signature.arguments).bind fun objects =>
      let call := approx (printNestedKleeExprs M (dumpContext objects rustArgument isFieldUnused)) depth
      (dumpArguments M call signature.arguments ∅ 0 signature.arguments).bind fun arguments =>
        (dumpResult call signature.result arguments.1).map fun result =>
          (objects, arguments.2 ++ result.2)

end

end Assure
