import Assure.Library.Collections
import Assure.Library.Regex
import Mathlib.Tactic.Common

/-!
# Matching two nodes

The C and the Rust version of a function are compared by the graphs of their symbolic values.
`matchNodes` says whether a node of the one graph may stand for a node of the other, by their labels:
they are equal, or they are the two arguments whose values the graphs are (`process_argument_name`),
or they are spellings of one thing, or `field_map` sends the one argument to the other
(`special_handle_map`).

What `partial(matchNodes, …)` fixes for a comparison is a `Comparison`. The labels here are there; nodes
that may be without one are in `Assure.Comparison.Mirrored`.
-/

namespace Assure

open Assure.Library Assure.Library.Pattern

/-- **What a comparison fixes.** `fieldMap` is `argument_order_map.json`: for a function, the C argument
index to the Rust one, both as text. `cIsTarget` says that the first graph is the C one. -/
structure Comparison where
  charClass : CharClass
  fieldMap : Dict String (Dict String String)
  functionName : String
  cIsTarget : Bool
  cDirectoryName : String
  rustDirectoryName : String
  onlyConsiderStruct : Bool

/-! ## Labels -/

/-- The label of the node for an argument. -/
def argumentLabel (i : Nat) : String := "arg_value_" ++ i.repr

/-- `^arg_value_\d+$` -/
def argumentPattern (charClass : CharClass) : Pattern Unit := do
  lit "arg_value_"
  let _ ← many1 charClass.digit
  pure ()

/-- `^arg_value_\d+(?:\.field_\d+)*$` -/
def argumentFieldPattern (charClass : CharClass) : Pattern Unit := do
  argumentPattern charClass
  star do
    lit ".field_"
    let _ ← many1 charClass.digit
    pure ()

/-- `first_token` -/
def firstToken (v : String) : String := String.ofList (v.toList.takeWhile (· ≠ ','))

/-- `label[-1]`; the labels it is asked for are not empty. -/
def lastCharacter (label : String) : String := String.ofList label.toList.getLast?.toList

/-- `normalize`: the name inside `*(…)`. -/
def normalize (s : String) : String :=
  if "*(".toList <+: s.toList ∧ ")".toList <:+ s.toList then
    String.ofList (s.toList.drop 2).dropLast
  else s

/-! ## The matcher -/

namespace Comparison

/-- What follows `function_name + "/"` in a directory's name. -/
def afterPrefix (cmp : Comparison) (directoryName : String) : Option String :=
  let start := (cmp.functionName ++ "/").toList
  if start <+: directoryName.toList then
    some (String.ofList (directoryName.toList.drop start.length))
  else none

/-- **`process_argument_name`**: the labels are the names of the compared directories. -/
def processArgumentName (cmp : Comparison) (label1 label2 : String) : Bool :=
  if fullmatch (argumentFieldPattern cmp.charClass) label1 &&
      fullmatch (argumentFieldPattern cmp.charClass) label2 then
    match cmp.afterPrefix cmp.cDirectoryName, cmp.afterPrefix cmp.rustDirectoryName with
    | some cArgumentName, some rustArgumentName =>
      if cmp.cIsTarget then
        label1 == normalize cArgumentName && label2 == normalize rustArgumentName
      else label1 == normalize rustArgumentName && label2 == normalize cArgumentName
    | _, _ => false
  else false

/-- **`special_handle_map`**: the argument map sends the last digit of the C label to the last digit of
the Rust label. -/
def specialHandleMap (cmp : Comparison) (targetFieldMap : Dict String String)
    (label1 label2 : String) : Bool :=
  if fullmatch (argumentPattern cmp.charClass) label1 &&
      fullmatch (argumentPattern cmp.charClass) label2 then
    let label1Index := lastCharacter label1
    let label2Index := lastCharacter label2
    if cmp.cIsTarget then
      match targetFieldMap.get? label1Index with
      | some v => label2Index == firstToken v
      | none => false
    else
      match targetFieldMap.get? label2Index with
      | some v => label1Index == firstToken v
      | none => false
  else false

/-- Two spellings of one thing. -/
def spellings (labels : List String) (label1 label2 : String) : Bool :=
  labels.contains label1 && labels.contains label2

/-- **`matchNodes`** -/
def matchNodes (cmp : Comparison) (label1 label2 : String) : Bool :=
  if cmp.onlyConsiderStruct then true
  else if label1 = label2 then true
  else if cmp.processArgumentName label1 label2 then true
  else if spellings ["0", "false"] label1 label2 then true
  else if spellings ["1", "true"] label1 label2 then true
  else if spellings ["ReadLSB", "Read"] label1 label2 then true
  else if spellings ["AShr", "LShr"] label1 label2 then true
  else if "csv_strerror".toList.isPrefixOf cmp.functionName.toList &&
      spellings ["8", "16"] label1 label2 then true
  else
    match cmp.fieldMap.get? cmp.functionName with
    | some targetFieldMap => cmp.specialHandleMap targetFieldMap label1 label2
    | none => false

/-- C argument `i` is matched with Rust argument `j`. -/
def matchesArgument (cmp : Comparison) (i j : Nat) : Bool :=
  if cmp.cIsTarget then cmp.matchNodes (argumentLabel i) (argumentLabel j)
  else cmp.matchNodes (argumentLabel j) (argumentLabel i)

end Comparison

/-! ## Argument labels -/

/-- A label of an argument is a fixed word with the digits of the number behind it. -/
theorem argumentLabel_toList (i : Nat) :
    (argumentLabel i).toList = "arg_value_".toList ++ Nat.toDigits 10 i := by
  simp [argumentLabel]

/-- Different arguments have different labels, because a number is determined by its digits. -/
@[simp] theorem argumentLabel_inj {i j : Nat} : argumentLabel i = argumentLabel j ↔ i = j := by
  constructor
  · intro h
    have hlabels := congrArg String.toList h
    rw [argumentLabel_toList, argumentLabel_toList] at hlabels
    have hdigits := congrArg (Nat.ofDigitChars 10 · 0) (List.append_cancel_left hlabels)
    simpa [Nat.ofDigitChars_toDigits] using hdigits
  · intro h
    rw [h]

/-- The last digit decides the last character. -/
theorem lastCharacter_argumentLabel (i : Nat) : lastCharacter (argumentLabel i) = (i % 10).repr := by
  have hlast : (Nat.toDigits 10 i).getLast? = some (i % 10).digitChar := by
    rw [Nat.toDigits_eq_if (by decide)]
    split
    · rw [Nat.mod_eq_of_lt (by assumption)]
      rfl
    · exact List.getLast?_concat
  rw [lastCharacter, argumentLabel_toList, List.getLast?_append, hlast, ← String.toList_inj,
    String.toList_ofList, Nat.toList_repr, Nat.toDigits_of_lt_base (Nat.mod_lt i (by decide))]
  rfl

/-- What is written of a number are decimal digits, which every class of characters has among its
digits. -/
theorem digit_of_mem_toDigits (charClass : CharClass) {i : Nat} :
    ∀ c ∈ Nat.toDigits 10 i, charClass.digit c = true := by
  intro c hc
  have hdigit := Nat.isDigit_of_mem_toDigits (by decide) (by decide) hc
  rw [charClass.digit_ascii c]
  · exact hdigit
  · have hnine : c.toNat ≤ '9'.toNat := (Char.isDigit_iff_toNat.mp hdigit).2
    exact Nat.lt_of_le_of_lt hnine (by decide)

/-- An argument label is one from its start to its end. -/
theorem mem_argumentPattern (charClass : CharClass) (i : Nat) :
    ∃ after, ((), (⟨after, []⟩ : Cursor)) ∈
      argumentPattern charClass ⟨none, (argumentLabel i).toList⟩ := by
  obtain ⟨mid, hmid⟩ := mem_chars (Nat.toDigits 10 i) "arg_value_".toList none
  obtain ⟨after, hafter⟩ := mem_many1 mid [] Nat.toDigits_ne_nil
    (digit_of_mem_toDigits charClass (i := i))
  rw [List.append_nil] at hafter
  rw [argumentLabel_toList]
  exact ⟨after, mem_bind.mpr ⟨_, hmid, mem_bind.mpr ⟨_, hafter, List.mem_singleton_self _⟩⟩⟩

/-- The label of an argument matches the pattern of labels of arguments. -/
@[simp] theorem fullmatch_argumentPattern (charClass : CharClass) (i : Nat) :
    fullmatch (argumentPattern charClass) (argumentLabel i) = true := by
  obtain ⟨after, h⟩ := mem_argumentPattern charClass i
  exact fullmatch_of_mem h

/-- It matches the pattern that allows fields behind it too, with no field at all. -/
@[simp] theorem fullmatch_argumentFieldPattern (charClass : CharClass) (i : Nat) :
    fullmatch (argumentFieldPattern charClass) (argumentLabel i) = true := by
  obtain ⟨after, h⟩ := mem_argumentPattern charClass i
  exact fullmatch_of_mem (mem_bind.mpr ⟨_, h, mem_star_stop _ _⟩)

end Assure
