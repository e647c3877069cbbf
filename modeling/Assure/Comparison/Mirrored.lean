import Assure.Comparison.MatchNodes

/-!
# The matcher in both directions

A pair of graphs is compared twice, with the C graph first and with the Rust graph first. Between labels the
matcher says the same both ways. A label can also be missing: an update whose offset is a plain number of
20 digits loses its label when `simplify_update_list` puts the node back. `fullmatch` raises for a missing
label, and since `and` asks for the second label only when the first one matches, it depends on the
direction whether it is asked.

The equivalence is for all attributes, labels and maps, and an outcome is the answer or that the
call raises. What follows for the distance of two graphs is not said: a call that raises ends the
comparison.
-/

namespace Assure

open Assure.Library Assure.Library.Pattern

/-- The attributes of a node. -/
abbrev Attributes := Dict String String

/-- `node.get('label')` -/
def Attributes.label (node : Attributes) : Option String := node.get? "label"

/-- `bool(pattern.fullmatch(label1)) and bool(pattern.fullmatch(label2))`. It raises when it comes to a
label that is missing. -/
def bothMatch (pattern : Pattern Unit) (label1 label2 : Option String) : Option Bool :=
  (label1.map (fullmatch pattern)).bind fun first =>
    if first then label2.map (fullmatch pattern) else some false

/-- `label1 in labels and label2 in labels` -/
def bothIn (labels : List String) (label1 label2 : Option String) : Bool :=
  label1.any labels.contains && label2.any labels.contains

namespace Comparison

/-- What a test of two labels says of labels that may be missing, once it has asked for both. -/
def onLabels (pattern : Pattern Unit) (test : String → String → Bool) (label1 label2 : Option String) :
    Option Bool :=
  (bothMatch pattern label1 label2).map fun both => both && test (label1.getD "") (label2.getD "")

/-- **`matchNodes`** on attributes; it answers nothing when it raises. -/
def matchAttributes (cmp : Comparison) (node1 node2 : Attributes) : Option Bool :=
  let label1 := node1.label
  let label2 := node2.label
  if cmp.onlyConsiderStruct then some true
  else if label1 = label2 then some true
  else
    (onLabels (argumentFieldPattern cmp.charClass) cmp.processArgumentName label1 label2).bind fun paired =>
      if paired then some true
      else if bothIn ["0", "false"] label1 label2 then some true
      else if bothIn ["1", "true"] label1 label2 then some true
      else if bothIn ["ReadLSB", "Read"] label1 label2 then some true
      else if bothIn ["AShr", "LShr"] label1 label2 then some true
      else if "csv_strerror".toList.isPrefixOf cmp.functionName.toList && bothIn ["8", "16"] label1 label2 then
        some true
      else
        match cmp.fieldMap.get? cmp.functionName with
        | some targetFieldMap =>
          onLabels (argumentPattern cmp.charClass) (cmp.specialHandleMap targetFieldMap) label1 label2
        | none => some false

/-- The comparison with the C graph first, or with the Rust graph first. -/
def toward (cmp : Comparison) (cIsTarget : Bool) : Comparison := { cmp with cIsTarget := cIsTarget }

/-- Comparing towards the other side changes which side is the target. -/
@[simp] theorem toward_cIsTarget (cmp : Comparison) (cIsTarget : Bool) :
    (cmp.toward cIsTarget).cIsTarget = cIsTarget := rfl

/-- It changes nothing about which names are considered. -/
@[simp] theorem toward_onlyConsiderStruct (cmp : Comparison) (cIsTarget : Bool) :
    (cmp.toward cIsTarget).onlyConsiderStruct = cmp.onlyConsiderStruct := rfl

/-- The classes of characters are the same for both directions. -/
@[simp] theorem toward_charClass (cmp : Comparison) (cIsTarget : Bool) :
    (cmp.toward cIsTarget).charClass = cmp.charClass := rfl

/-- So is the name of the function. -/
@[simp] theorem toward_functionName (cmp : Comparison) (cIsTarget : Bool) :
    (cmp.toward cIsTarget).functionName = cmp.functionName := rfl

/-- So is the map between the fields. -/
@[simp] theorem toward_fieldMap (cmp : Comparison) (cIsTarget : Bool) :
    (cmp.toward cIsTarget).fieldMap = cmp.fieldMap := rfl

/-- So is the directory of the C side. -/
@[simp] theorem toward_cDirectoryName (cmp : Comparison) (cIsTarget : Bool) :
    (cmp.toward cIsTarget).cDirectoryName = cmp.cDirectoryName := rfl

/-- So is the directory of the Rust side. -/
@[simp] theorem toward_rustDirectoryName (cmp : Comparison) (cIsTarget : Bool) :
    (cmp.toward cIsTarget).rustDirectoryName = cmp.rustDirectoryName := rfl

/-- What is left of a label behind the name of a directory is the same in both directions. -/
@[simp] theorem toward_afterPrefix (cmp : Comparison) (cIsTarget : Bool) (directoryName : String) :
    (cmp.toward cIsTarget).afterPrefix directoryName = cmp.afterPrefix directoryName := rfl

/-! ## Labels -/

/-- Looking up the argument from one side with the labels exchanged is looking it up from the other.
-/
theorem processArgumentName_mirror (cmp : Comparison) (label1 label2 : String) :
    (cmp.toward true).processArgumentName label1 label2 =
      (cmp.toward false).processArgumentName label2 label1 := by
  simp only [processArgumentName, toward_cIsTarget, toward_charClass, toward_cDirectoryName,
    toward_rustDirectoryName, toward_afterPrefix]
  rw [Bool.and_comm]
  cases cmp.afterPrefix cmp.cDirectoryName with
  | none => rfl
  | some cArgumentName =>
    cases cmp.afterPrefix cmp.rustDirectoryName with
    | none => rfl
    | some rustArgumentName => exact if_congr Iff.rfl (Bool.and_comm _ _) rfl

/-- The same for the special case of the fields. -/
theorem specialHandleMap_mirror (cmp : Comparison) (targetFieldMap : Dict String String)
    (label1 label2 : String) :
    (cmp.toward true).specialHandleMap targetFieldMap label1 label2 =
      (cmp.toward false).specialHandleMap targetFieldMap label2 label1 := by
  unfold specialHandleMap
  rw [Bool.and_comm]
  rfl

/-- Whether both labels are among some does not depend on their order. -/
theorem bothIn_comm (labels : List String) (label1 label2 : Option String) :
    bothIn labels label1 label2 = bothIn labels label2 label1 :=
  Bool.and_comm _ _

/-- A test that is the same both ways, on labels that are there. -/
theorem onLabels_some (pattern : Pattern Unit) {test test' : String → String → Bool}
    (h : ∀ label1 label2, test label1 label2 = test' label2 label1) (label1 label2 : String) :
    onLabels pattern test (some label1) (some label2) = onLabels pattern test' (some label2) (some label1) := by
  unfold onLabels bothMatch
  cases h1 : fullmatch pattern label1 <;> cases h2 : fullmatch pattern label2 <;> simp [h1, h2, h]

/-- **Between labels the matcher is the same both ways.** -/
theorem matchAttributes_labels (cmp : Comparison) {node1 node2 : Attributes} {label1 label2 : String}
    (h1 : node1.label = some label1) (h2 : node2.label = some label2) :
    (cmp.toward true).matchAttributes node1 node2 = (cmp.toward false).matchAttributes node2 node1 := by
  unfold matchAttributes
  simp only [h1, h2, toward_onlyConsiderStruct, toward_charClass, toward_functionName, toward_fieldMap,
    bothIn_comm _ (some label1) (some label2), eq_comm (a := some label1) (b := some label2)]
  rw [onLabels_some _ cmp.processArgumentName_mirror]
  cases cmp.fieldMap.get? cmp.functionName with
  | none => rfl
  | some targetFieldMap =>
    simp only [onLabels_some _ (cmp.specialHandleMap_mirror targetFieldMap)]

/-! ## A label that is missing -/

/-- The path of an argument without fields is a path. -/
theorem fullmatch_argumentField {charClass : CharClass} {label : String}
    (h : fullmatch (argumentPattern charClass) label = true) :
    fullmatch (argumentFieldPattern charClass) label = true := by
  obtain ⟨way, hway, hend⟩ := List.any_eq_true.mp h
  refine List.any_eq_true.mpr ⟨((), way.2), ?_, hend⟩
  exact mem_bind.mpr ⟨way, hway, mem_star_stop _ way.2⟩

/-- Without a first label the test raises, before the second one is looked at. -/
theorem onLabels_none_left (pattern : Pattern Unit) (test : String → String → Bool) (label2 : Option String) :
    onLabels pattern test none label2 = none := rfl

/-- Without a second label the test raises if the first one matches and is false otherwise. This is
where the two orders of the labels part. -/
theorem onLabels_none_right (pattern : Pattern Unit) (test : String → String → Bool) (label : String) :
    onLabels pattern test (some label) none =
      if fullmatch pattern label then none else some false := by
  unfold onLabels bothMatch
  cases h : fullmatch pattern label <;> simp [h]

/-- A node without a label in the first place: the matcher raises. -/
theorem matchAttributes_missing_left (cmp : Comparison) {node1 node2 : Attributes} {label : String}
    (hstruct : cmp.onlyConsiderStruct = false) (h1 : node1.label = none) (h2 : node2.label = some label) :
    cmp.matchAttributes node1 node2 = none := by
  simp [matchAttributes, hstruct, h1, h2, onLabels_none_left]

/-- A node without a label in the second place: the matcher raises if the other label is the path of an
argument, and else does not match. -/
theorem matchAttributes_missing_right (cmp : Comparison) {node1 node2 : Attributes} {label : String}
    (hstruct : cmp.onlyConsiderStruct = false) (h1 : node1.label = some label) (h2 : node2.label = none) :
    cmp.matchAttributes node1 node2 =
      if fullmatch (argumentFieldPattern cmp.charClass) label then none else some false := by
  have hin : ∀ labels, bothIn labels (some label) none = false := fun _ => Bool.and_false _
  simp only [matchAttributes, hstruct, h1, h2, onLabels_none_right, hin, Bool.and_false, Bool.false_eq_true,
    if_false, reduceCtorEq]
  by_cases hpath : fullmatch (argumentFieldPattern cmp.charClass) label = true
  · rw [if_pos hpath]
    rfl
  · rw [if_neg hpath]
    cases cmp.fieldMap.get? cmp.functionName with
    | none => rfl
    | some targetFieldMap =>
      have hpattern : ¬ fullmatch (argumentPattern cmp.charClass) label = true :=
        fun h => hpath (fullmatch_argumentField h)
      simp only [Option.bind_some, Bool.false_eq_true, if_false, if_neg hpattern]

/-- The two directions give one answer on a pair of nodes, or both raise. -/
def Mirrors (cmp : Comparison) (node1 node2 : Attributes) : Prop :=
  (cmp.toward true).matchAttributes node1 node2 = (cmp.toward false).matchAttributes node2 node1

/-- The label of only one of two nodes is there, and it is not the path of an argument. -/
def OneLabelMissing (cmp : Comparison) (node1 node2 : Attributes) : Prop :=
  ∃ label, (node1.label = none ∧ node2.label = some label ∨ node1.label = some label ∧ node2.label = none) ∧
    fullmatch (argumentFieldPattern cmp.charClass) label = false

/-- **When the two directions agree**: one pair of nodes gets one answer from both, or both raise, exactly if only
structs are considered or no label is missing from one of the two nodes alone where the other is not the path of an
argument. -/
theorem mirrors_iff (cmp : Comparison) (node1 node2 : Attributes) :
    cmp.Mirrors node1 node2 ↔ cmp.onlyConsiderStruct = true ∨ ¬ cmp.OneLabelMissing node1 node2 := by
  unfold Mirrors OneLabelMissing
  cases hstruct : cmp.onlyConsiderStruct with
  | true => simp [matchAttributes, hstruct]
  | false =>
    have htoward : ∀ cIsTarget, (cmp.toward cIsTarget).onlyConsiderStruct = false := fun _ => hstruct
    cases h1 : node1.label with
    | none =>
      cases h2 : node2.label with
      | none => simp [matchAttributes, hstruct, h1, h2]
      | some label =>
        rw [matchAttributes_missing_left _ (htoward true) h1 h2,
          matchAttributes_missing_right _ (htoward false) h2 h1]
        cases h : fullmatch (argumentFieldPattern cmp.charClass) label <;> simp [h]
    | some label =>
      cases h2 : node2.label with
      | none =>
        rw [matchAttributes_missing_right _ (htoward true) h1 h2,
          matchAttributes_missing_left _ (htoward false) h2 h1]
        cases h : fullmatch (argumentFieldPattern cmp.charClass) label <;> simp [h]
      | some label2 => simp [cmp.matchAttributes_labels h1 h2]

/-- The comparison of a function without argument map. -/
def unmapped : Comparison where
  charClass := .ascii
  fieldMap := ⟨[], List.nodup_nil⟩
  functionName := "f"
  cIsTarget := true
  cDirectoryName := "f/ret_value"
  rustDirectoryName := "f/ret_value"
  onlyConsiderStruct := false

/-- The node that `simplify_update_list` puts back, and a number. -/
theorem mirrors_not_missing :
    ¬ unmapped.Mirrors ⟨[], List.nodup_nil⟩ ⟨[("label", "5")], List.nodup_singleton _⟩ := by
  unfold Mirrors
  rw [matchAttributes_missing_left _ rfl rfl rfl, matchAttributes_missing_right _ rfl rfl rfl]
  decide +kernel

end Comparison

end Assure
