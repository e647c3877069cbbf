import Assure.Comparison.KqueryInline
import Assure.Comparison.KqueryOutline
import Assure.Comparison.KqueryReturns

/-!
# Trees of expressions without sharing

`drawn` is the tree of an expression without definitions: what the visitor makes of each operator and operand if it does
not raise, and `None` for a number in parentheses and for a negation. A copy of a drawn tree is drawn the same exactly if
there is no update in it (`copiesIf_updateFree`).
-/

namespace Assure

open Assure.Library

/-- Value, `type_value`, `type` and edge of a node. -/
abbrev Shown := String × String × String × String

/-- What is drawn: nodes, and `None` where a visit returns it. -/
abbrev Drawn := RoseTree (Option Shown)

/-- `None` -/
def drawnNone : Drawn := .node none []

/-- What the graph has of it: label, type mark and edge label. -/
def visible (shown : Shown) : String × String × String := (shown.1, shown.2.2.1, shown.2.2.2)

/-- **What the graph has of a node.** -/
def GraphNode.drawn (node : GraphNode) : String × String × String :=
  (node.value, node.type, node.edge)

/-- A node of a copy. -/
def copyShown (shown : Shown) : Shown := (shown.1, shown.2.1, shown.2.1, "")

/-- With another edge. -/
def withEdgeShown (label : String) (shown : Shown) : Shown :=
  (shown.1, shown.2.1, shown.2.2.1, label)

/-- With the mark of a constant offset. -/
def markShown (offsetText : String) (shown : Shown) : Shown :=
  if isConcreteOffset offsetText then (shown.1, shown.2.1, "concrete_klee_offset", shown.2.2.2)
  else shown

section

variable (baseAddress : List Int)

/-! ## Drawing -/

/-- A node over its children. -/
def drawnNode (value type : String) (children : List Drawn) : Drawn :=
  .node (some (nodeValue baseAddress value, nodeTypeValue baseAddress value type,
    nodeTypeValue baseAddress value type, "")) children

/-- The mark a target is drawn with. -/
def targetMark (text : String) : String := "\"target : " ++ text ++ "\""

def drawnUpdated (updates : List Drawn) (targetText : String) : Drawn :=
  drawnNode baseAddress "version" "" <|
    (if updates.isEmpty then [] else [drawnNode baseAddress "update_list" "" updates]) ++
      [drawnNode baseAddress (targetMark targetText) "" []]

def drawnUpdate (offsetText : String) (offset value : Drawn) : Drawn :=
  drawnNode baseAddress "update_list_sub_node" ""
    [(offset.mapRoot (Option.map (markShown offsetText))).mapRoot (Option.map (withEdgeShown "offset")),
      value.mapRoot (Option.map (withEdgeShown "value"))]

def NumberList.drawn : NumberList → Drawn
  | .single number => drawnNode baseAddress number.text "" []
  | .cons number rest =>
    drawnNode baseAddress "NumberList" "" [drawnNode baseAddress number.text "" [], rest.drawn]

def ArrayInitializer.drawn : ArrayInitializer → Drawn
  | .symbolic => drawnNode baseAddress "array_initializer" "" [drawnNode baseAddress "symbolic" "" []]
  | .numbers list => drawnNode baseAddress "array_initializer" "" [list.drawn baseAddress]

mutual

/-- **The tree of an expression.** -/
def KqueryExpr.drawn : KqueryExpr → Drawn
  | .identifier name => drawnNode baseAddress name.text "" []
  | .number number => drawnNode baseAddress number.text "" []
  | .definition _ e => e.drawn
  | .numberWithType .. | .neg .. => drawnNone
  | .arrayDeclaration name _ _ _ init =>
    drawnNode baseAddress "array" name.text [init.drawn baseAddress]
  | .arithmetic kind type e1 e2 => drawnNode baseAddress kind.text type [e1.drawn, e2.drawn]
  | .bitwise kind type e1 e2 => drawnNode baseAddress kind.text (type.getD "") [e1.drawn, e2.drawn]
  | .comparison kind type e1 e2 =>
    drawnNode baseAddress kind.text (type.getD "") [e1.drawn, e2.drawn]
  | .bv kind type e1 e2 => drawnNode baseAddress kind.text (type.getD "") [e1.drawn, e2.drawn]
  | .extension kind type e => drawnNode baseAddress kind.text type [e.drawn]
  | .read type e version => drawnNode baseAddress "Read" type [e.drawn, version.drawn]
  | .select type e1 e2 e3 => drawnNode baseAddress "Select" type [e1.drawn, e2.drawn, e3.drawn]
  | .arrayRead kind type e version => drawnNode baseAddress kind.text type [e.drawn, version.drawn]
  | .version updates target => drawnUpdated baseAddress updates.drawn target.text

/-- The tree of a version. -/
def KqueryVersion.drawn : KqueryVersion → Drawn
  | .updated updates target => drawnUpdated baseAddress updates.drawn target.text
  | .name name => drawnNode baseAddress name.text "" []
  | .definition _ e => drawnNode baseAddress "version" "" [e.drawn]

/-- The trees of updates. -/
def KqueryUpdates.drawn : KqueryUpdates → List Drawn
  | .nil => []
  | .cons offset value rest => drawnUpdate baseAddress offset.text offset.drawn value.drawn :: rest.drawn

end

variable {baseAddress}

/-! ## Roots -/

/-- What a node made by the visitor shows: its text, its type twice, and no edge label yet. -/
@[simp] theorem drawnNode_label (value type : String) (children : List Drawn) :
    (drawnNode baseAddress value type children).label =
      some (nodeValue baseAddress value, nodeTypeValue baseAddress value type,
        nodeTypeValue baseAddress value type, "") := rfl

/-- A copy of the node would be the same. -/
def Copyable (a : Option Shown) : Prop := ∀ shown ∈ a, shown.2.2.1 = shown.2.1 ∧ shown.2.2.2 = ""

/-- A shown node can be copied unchanged if its final type is its type and it carries no edge label,
since a copy is made without either. -/
theorem copyable_some {shown : Shown} : Copyable (some shown) ↔ shown.2.2.1 = shown.2.1 ∧ shown.2.2.2 = "" := by
  rw [Copyable]
  simp

/-- A root has no mark, and no edge leads to it. -/
theorem KqueryExpr.drawn_root : ∀ e : KqueryExpr, Copyable (e.drawn baseAddress).label
  | .definition _ e => by
    rw [KqueryExpr.drawn]
    exact e.drawn_root
  | .numberWithType .. | .neg .. => by
    rw [KqueryExpr.drawn]
    exact fun shown h => absurd h (Option.not_mem_none shown)
  | .identifier _ | .number _ | .arrayDeclaration .. | .arithmetic .. | .bitwise .. | .comparison .. | .bv ..
  | .extension .. | .read .. | .select .. | .arrayRead .. | .version .. => by
    rw [KqueryExpr.drawn]
    exact copyable_some.mpr ⟨rfl, rfl⟩

/-! ## Copies -/

/-- A node just made is itself copyable, so a drawn expression is copyable where its operands are.
-/
theorem copyable_drawnNode {value type : String} {children : List Drawn} :
    (∀ a ∈ (drawnNode baseAddress value type children).labels, Copyable a) ↔
      ∀ child ∈ children, ∀ a ∈ child.labels, Copyable a := by
  rw [drawnNode, RoseTree.labels_node, List.forall_mem_cons]
  simp only [List.mem_flatMap, forall_exists_index, and_imp]
  constructor
  · intro h child hchild a ha
    exact h.2 a child hchild ha
  · intro h
    exact ⟨copyable_some.mpr ⟨rfl, rfl⟩, fun a child hchild ha => h child hchild a ha⟩

/-- There is no `None` in a tree, and no edge in it has a label. -/
def Unlabelled (t : Drawn) : Prop := ∀ a ∈ t.labels, ∃ shown, a = some shown ∧ shown.2.2.2 = ""

/-- Where no node of a drawn expression carries an edge label, none of its operands does. -/
theorem unlabelled_children {value type : String} {children : List Drawn}
    (h : Unlabelled (drawnNode baseAddress value type children)) : ∀ child ∈ children, Unlabelled child := by
  rw [Unlabelled, drawnNode, RoseTree.labels_node, List.forall_mem_cons] at h
  exact fun child hchild a ha => h.2 a (List.mem_flatMap.mpr ⟨child, hchild, ha⟩)

/-- **A tree is copied the same exactly if it is `free`**: then all its nodes are, and it is where no edge has a label. -/
structure CopiesIf (t : Drawn) (free : Bool) : Prop where
  copyable : free = true → ∀ a ∈ t.labels, Copyable a
  free_of : Unlabelled t → free = true

/-- An operator is copyable exactly if all its operands are: its own node never stands in the way.
-/
theorem CopiesIf.node {value type : String} {children : List Drawn} {frees : List Bool}
    (h : List.Forall₂ CopiesIf children frees) : CopiesIf (drawnNode baseAddress value type children) (frees.all id) where
  copyable := by
    rw [copyable_drawnNode]
    induction h with
    | nil => exact fun _ _ hchild => absurd hchild List.not_mem_nil
    | cons h _ ih =>
      rw [List.forall_mem_cons, List.all_cons, Bool.and_eq_true]
      exact fun hfree => ⟨h.copyable hfree.1, ih hfree.2⟩
  free_of := by
    intro hlabels
    have hchildren := unlabelled_children hlabels
    clear hlabels
    induction h with
    | nil => rfl
    | cons h _ ih =>
      rw [List.forall_mem_cons] at hchildren
      rw [List.all_cons, Bool.and_eq_true]
      exact ⟨h.free_of hchildren.1, ih hchildren.2⟩

/-- A leaf is always copyable. -/
theorem CopiesIf.leaf (value type : String) : CopiesIf (drawnNode baseAddress value type []) true := .node .nil

/-- The case of one operand. -/
theorem CopiesIf.one {value type : String} {t : Drawn} {free : Bool} (h : CopiesIf t free) :
    CopiesIf (drawnNode baseAddress value type [t]) free := by
  have hnode := @CopiesIf.node baseAddress value type _ _ (.cons h .nil)
  rwa [List.all_cons, List.all_nil, Bool.and_true] at hnode

/-- The case of two operands. -/
theorem CopiesIf.two {value type : String} {t1 t2 : Drawn} {free1 free2 : Bool} (h1 : CopiesIf t1 free1)
    (h2 : CopiesIf t2 free2) : CopiesIf (drawnNode baseAddress value type [t1, t2]) (free1 && free2) := by
  have hnode := @CopiesIf.node baseAddress value type _ _ (.cons h1 (.cons h2 .nil))
  rwa [List.all_cons, List.all_cons, List.all_nil, Bool.and_true] at hnode

/-- The case of three operands. -/
theorem CopiesIf.three {value type : String} {t1 t2 t3 : Drawn} {free1 free2 free3 : Bool} (h1 : CopiesIf t1 free1)
    (h2 : CopiesIf t2 free2) (h3 : CopiesIf t3 free3) :
    CopiesIf (drawnNode baseAddress value type [t1, t2, t3]) (free1 && (free2 && free3)) := by
  have hnode := @CopiesIf.node baseAddress value type _ _ (.cons h1 (.cons h2 (.cons h3 .nil)))
  rwa [List.all_cons, List.all_cons, List.all_cons, List.all_nil, Bool.and_true] at hnode

/-- Of `None` there is no copy. -/
theorem CopiesIf.none (free : Bool) : CopiesIf drawnNone free where
  copyable := fun _ a ha => by
    obtain rfl := List.mem_singleton.mp (show a ∈ [Option.none] from ha)
    exact fun shown h => absurd h (Option.not_mem_none shown)
  free_of := fun h => by
    obtain ⟨shown, hnone, -⟩ := h Option.none (List.mem_singleton_self _)
    cases hnone

/-- A list of numbers is drawn without edge labels, so it is copyable. -/
theorem CopiesIf.numberList : ∀ list : NumberList, CopiesIf (list.drawn baseAddress) true
  | .single number => .leaf number.text ""
  | .cons number rest => .two (.leaf number.text "") (CopiesIf.numberList rest)

/-- An initial value of an array is drawn without edge labels as well. -/
theorem CopiesIf.arrayInitializer : ∀ init : ArrayInitializer, CopiesIf (init.drawn baseAddress) true
  | .symbolic => .one (.leaf "symbolic" "")
  | .numbers list => .one (.numberList list)

/-- The edge to the value has a label. -/
theorem not_unlabelled_update (offsetText : String) (offset value : Drawn) :
    ¬ Unlabelled (drawnUpdate baseAddress offsetText offset value) := by
  intro h
  have hvalue := unlabelled_children h _ (List.mem_cons_of_mem _ List.mem_cons_self) _ (RoseTree.label_mem_labels _)
  rw [RoseTree.label_mapRoot] at hvalue
  obtain ⟨shown, hshown, hedge⟩ := hvalue
  obtain ⟨shown', -, rfl⟩ := Option.map_eq_some_iff.mp hshown
  exact absurd (show "value" = "" from hedge) (by simp)

/-- A read through a list of updates is copyable exactly if the list is empty, because the edges to
the updates are labelled. -/
theorem CopiesIf.updated (updates : KqueryUpdates) (targetText : String) :
    CopiesIf (drawnUpdated baseAddress (updates.drawn baseAddress) targetText) updates.isNil := by
  rw [drawnUpdated]
  cases updates with
  | nil =>
    rw [KqueryUpdates.drawn]
    exact .one (.leaf (targetMark targetText) "")
  | cons offset value rest =>
    rw [KqueryUpdates.drawn]
    refine ⟨fun h => absurd h Bool.false_ne_true, fun h => ?_⟩
    have hlist := unlabelled_children h _ List.mem_cons_self
    exact absurd (unlabelled_children hlist _ List.mem_cons_self) (not_unlabelled_update _ _ _)

mutual

/-- **A copy of a tree is drawn the same** exactly without updates. -/
theorem copiesIf_updateFree : ∀ e : KqueryExpr, CopiesIf (e.drawn baseAddress) e.updateFree
  | .identifier _ | .number _ => by
    rw [KqueryExpr.drawn, KqueryExpr.updateFree]
    exact .leaf _ _
  | .numberWithType .. | .neg .. => by
    rw [KqueryExpr.drawn]
    exact .none _
  | .definition _ e => by
    rw [KqueryExpr.drawn, KqueryExpr.updateFree]
    exact copiesIf_updateFree e
  | .arrayDeclaration _ _ _ _ init => by
    rw [KqueryExpr.drawn, KqueryExpr.updateFree]
    exact .one (.arrayInitializer init)
  | .arithmetic _ _ e1 e2 | .bitwise _ _ e1 e2 | .comparison _ _ e1 e2 | .bv _ _ e1 e2 => by
    rw [KqueryExpr.drawn, KqueryExpr.updateFree]
    exact .two (copiesIf_updateFree e1) (copiesIf_updateFree e2)
  | .extension _ _ e => by
    rw [KqueryExpr.drawn, KqueryExpr.updateFree]
    exact .one (copiesIf_updateFree e)
  | .read _ e version | .arrayRead _ _ e version => by
    rw [KqueryExpr.drawn, KqueryExpr.updateFree]
    exact .two (copiesIf_updateFree e) (version_copiesIf version)
  | .select _ e1 e2 e3 => by
    rw [KqueryExpr.drawn, KqueryExpr.updateFree]
    exact .three (copiesIf_updateFree e1) (copiesIf_updateFree e2) (copiesIf_updateFree e3)
  | .version updates target => by
    rw [KqueryExpr.drawn, KqueryExpr.updateFree]
    exact .updated updates target.text

/-- A version of an array is copied as it was drawn exactly if there is no list of updates in it. -/
theorem version_copiesIf : ∀ version : KqueryVersion, CopiesIf (version.drawn baseAddress) version.updateFree
  | .updated updates target => by
    rw [KqueryVersion.drawn, KqueryVersion.updateFree]
    exact .updated updates target.text
  | .name _ => by
    rw [KqueryVersion.drawn, KqueryVersion.updateFree]
    exact .leaf _ _
  | .definition _ e => by
    rw [KqueryVersion.drawn, KqueryVersion.updateFree]
    exact .one (copiesIf_updateFree e)

end

/-- A tree whose nodes are copied the same is. -/
theorem copy_eq_of_copyable {t : Drawn} (h : ∀ a ∈ t.labels, Copyable a) : t.map (Option.map copyShown) = t := by
  refine Eq.trans ?_ (RoseTree.map_id _)
  rw [RoseTree.map_eq_map_iff]
  intro a ha
  have hcopy := h a ha
  cases a with
  | none => rfl
  | some shown =>
    obtain ⟨value, typeValue, type, edge⟩ := shown
    obtain ⟨rfl, rfl⟩ : type = typeValue ∧ edge = "" := copyable_some.mp hcopy
    rfl

/-! ## Names -/

/-- What a name starts with. -/
theorem nameStart {c : Char} (h : (c.isAlpha || c == '_') = true) :
    c.isDigit = false ∧ c ≠ '"' := by
  have hrange : (65 ≤ c.toNat ∧ c.toNat ≤ 90 ∨ 97 ≤ c.toNat ∧ c.toNat ≤ 122) ∨ c = '_' := by
    rw [Bool.or_eq_true, beq_iff_eq] at h
    refine h.imp_left fun halpha => ?_
    have hcase : (c.isUpper || c.isLower) = true := halpha
    delta Char.isUpper Char.isLower at hcase
    simp only [Bool.or_eq_true, Bool.and_eq_true, decide_eq_true_eq] at hcase
    exact hcase
  have hdigit : c.isDigit = true → 48 ≤ c.toNat ∧ c.toNat ≤ 57 := by
    intro hd
    delta Char.isDigit at hd
    simp only [Bool.and_eq_true, decide_eq_true_eq] at hd
    exact hd
  constructor
  · by_contra hd
    have hd := hdigit (by simpa using hd)
    rcases hrange with hrange | rfl
    · omega
    · exact absurd hd (by decide)
  · rintro rfl
    rcases hrange with hrange | hc
    · exact absurd hrange (by decide)
    · exact absurd hc (by decide)

/-- A name begins with a letter or an underscore, hence with no digit and no quotation mark. -/
theorem Identifier.exists_head (name : Identifier) :
    ∃ c cs, name.text.toList = c :: cs ∧ c.isDigit = false ∧ c ≠ '"' := by
  obtain ⟨text, hvalid⟩ := name
  show ∃ c cs, text.toList = c :: cs ∧ c.isDigit = false ∧ c ≠ '"'
  unfold isIdentifierText at hvalid
  cases htext : text.toList with
  | nil =>
    rw [htext, Bool.and_false] at hvalid
    cases hvalid
  | cons c cs =>
    rw [htext, Bool.and_eq_true, Bool.and_eq_true] at hvalid
    obtain ⟨hdigit, hquote⟩ := nameStart hvalid.2.1
    exact ⟨c, cs, rfl, hdigit, hquote⟩

/-- A name is no offset in memory, which is a number. -/
theorem Identifier.checkKleeOffset_eq (name : Identifier) : checkKleeOffset name.text = false := by
  obtain ⟨c, cs, htext, hdigit, -⟩ := name.exists_head
  rw [checkKleeOffset, htext, List.all_cons, hdigit, Bool.false_and, Bool.and_false]

/-- A name is no constant offset either. -/
theorem Identifier.isConcreteOffset_eq (name : Identifier) : isConcreteOffset name.text = false := by
  obtain ⟨c, cs, htext, hdigit, -⟩ := name.exists_head
  rw [isConcreteOffset, htext, List.all_cons, hdigit, Bool.false_and, Bool.and_false]

/-- A name is the label of its node, shortened for constant arrays. -/
theorem Identifier.nodeValue_eq (name : Identifier) :
    nodeValue baseAddress name.text = processValue name.text := by
  rw [nodeValue, name.checkKleeOffset_eq]
  rfl

/-- The type of a leaf that is a name is the type it was given. -/
theorem Identifier.nodeTypeValue_eq (name : Identifier) (type : String) :
    nodeTypeValue baseAddress name.text type = type := by
  rw [nodeTypeValue, name.checkKleeOffset_eq]
  rfl

/-- The text of a node stays as it is, unless it is one of a constant array, whose number is
dropped. -/
theorem processValue_eq (value : String) :
    processValue value = value ∨ processValue value = "const_arr" := by
  unfold processValue
  split
  · exact .inr rfl
  · exact .inl rfl

/-! ## Numbers are no names -/

/-- A text that begins like a constant array does not begin like a number. -/
theorem isNumberText_constArr {text : String} (h : "const_arr".toList <+: text.toList) :
    isNumberText text = false := by
  obtain ⟨rest, hrest⟩ := h
  have htrue : (text == "true") = false := by
    rw [beq_eq_false_iff_ne]
    rintro rfl
    cases hrest
  have hfalse : (text == "false") = false := by
    rw [beq_eq_false_iff_ne]
    rintro rfl
    cases hrest
  rw [isNumberText, htrue, hfalse, ← hrest]
  rfl

/-- The node of a number is not the node of a name. -/
theorem number_ne_name (number : NumberToken) (name : Identifier) :
    (nodeValue baseAddress number.text, nodeTypeValue baseAddress number.text "") ≠
      (processValue name.text, "") := by
  intro h
  obtain ⟨hvalue, htype⟩ := Prod.mk.inj h
  have hname : isNumberText name.text = false := by
    have hvalid := name.valid
    rw [isIdentifierText, Bool.and_eq_true, Bool.not_eq_true'] at hvalid
    exact hvalid.1
  by_cases hcheck : checkKleeOffset number.text = true
  · rw [nodeTypeValue, if_pos hcheck] at htype
    split at htype <;> exact absurd htype (by simp)
  · rw [nodeValue, if_neg hcheck, processValue] at hvalue
    split at hvalue
    · rename_i hstart
      have hnumber := number.valid
      rw [isNumberText_constArr hstart] at hnumber
      cases hnumber
    · rcases processValue_eq name.text with heq | heq
      · rw [heq] at hvalue
        have hnumber := number.valid
        rw [hvalue, hname] at hnumber
        cases hnumber
      · rw [heq] at hvalue
        have hnumber := number.valid
        rw [hvalue] at hnumber
        exact absurd hnumber (by decide +kernel)

/-- The leaf of a name shows what reads as the name. -/
theorem readsAs_iff (name other : Identifier) :
    (drawnNode baseAddress name.text "" []).map (Option.map visible) =
        (drawnNode baseAddress other.text "" []).map (Option.map visible) ↔
      name.readsAs other = true := by
  rw [drawnNode, drawnNode, RoseTree.map_node, RoseTree.map_node, RoseTree.node.injEq,
    name.nodeValue_eq, other.nodeValue_eq, name.nodeTypeValue_eq, other.nodeTypeValue_eq]
  simp only [Option.map_some, Option.some.injEq, visible, Prod.mk.injEq, and_true, List.map_nil]
  rw [Identifier.readsAs, beq_iff_eq]

/-- Two names that are read alike are drawn alike, for instance those of two constant arrays. -/
theorem drawn_eq_of_readsAs {name other : Identifier} (h : name.readsAs other = true) :
    drawnNode baseAddress name.text "" [] = drawnNode baseAddress other.text "" [] := by
  rw [Identifier.readsAs, beq_iff_eq] at h
  rw [drawnNode, drawnNode, name.nodeValue_eq, other.nodeValue_eq, name.nodeTypeValue_eq,
    other.nodeTypeValue_eq, h]

/-- The mark of the target is the name in quotation marks behind a fixed word. -/
theorem targetMark_toList (text : String) :
    (targetMark text).toList = '"' :: ("target : ".toList ++ (text.toList ++ ['"'])) := by
  rw [targetMark, String.toList_append, String.toList_append, List.append_assoc]
  rfl

/-- A target is marked by its text alone. -/
theorem nodeValue_targetMark (text : String) :
    nodeValue baseAddress (targetMark text) = targetMark text := by
  have hcheck : checkKleeOffset (targetMark text) = false := by
    rw [checkKleeOffset, targetMark_toList, List.all_cons]
    exact Bool.and_false _
  apply nodeValue_of_operator hcheck
  rw [processValue, if_neg]
  rw [targetMark_toList]
  rintro ⟨rest, hrest⟩
  cases hrest

/-- The mark of the target determines the name, so that lists of updates on different arrays are
told apart. -/
theorem targetMark_injective {text other : String} (h : targetMark text = targetMark other) :
    text = other := by
  have hlist := congrArg String.toList h
  rw [targetMark_toList, targetMark_toList, List.cons.injEq] at hlist
  exact String.toList_injective (List.append_cancel_right (List.append_cancel_left hlist.2))

/-- A name is no target. -/
theorem processValue_ne_targetMark (name : Identifier) (text : String) :
    processValue name.text ≠ targetMark text := by
  intro h
  rcases processValue_eq name.text with heq | heq
  · obtain ⟨c, cs, hname, -, hquote⟩ := name.exists_head
    have hlist := congrArg String.toList (heq.symm.trans h)
    rw [hname, targetMark_toList, List.cons.injEq] at hlist
    exact hquote hlist.1
  · have hlist := congrArg String.toList (heq.symm.trans h)
    rw [targetMark_toList] at hlist
    cases hlist

/-- A leaf is no tree with children. -/
theorem leaf_ne_node {value type value' type' : String} {children : List Drawn} (h : children ≠ []) :
    (drawnNode baseAddress value type []).map (Option.map visible) ≠
      (drawnNode baseAddress value' type' children).map (Option.map visible) := by
  intro heq
  rw [drawnNode, drawnNode, RoseTree.map_node, RoseTree.map_node, RoseTree.node.injEq] at heq
  exact h (List.map_eq_nil_iff.mp heq.2.symm)

/-- A leaf is never drawn like a read through updates: one has no operand and the other has. -/
theorem leaf_ne_updated {value type : String} (updates : List Drawn) (targetText : String) :
    (drawnNode baseAddress value type []).map (Option.map visible) ≠
      (drawnUpdated baseAddress updates targetText).map (Option.map visible) :=
  leaf_ne_node (by simp)

end

/-! ## Expressions without definitions -/

mutual

/-- No definition, except of something other than a version in the place of one. -/
def KqueryExpr.plain : KqueryExpr → Bool
  | .identifier _ | .number _ | .numberWithType .. | .arrayDeclaration .. => true
  | .definition .. => false
  | .extension _ _ e | .neg _ e => e.plain
  | .arithmetic _ _ e1 e2 | .bitwise _ _ e1 e2 | .comparison _ _ e1 e2 | .bv _ _ e1 e2 =>
    e1.plain && e2.plain
  | .read _ e version | .arrayRead _ _ e version => e.plain && version.plain
  | .select _ e1 e2 e3 => e1.plain && (e2.plain && e3.plain)
  | .version updates _ => updates.plain

def KqueryVersion.plain : KqueryVersion → Bool
  | .updated updates _ => updates.plain
  | .name _ => true
  | .definition _ e => e.plain && e.asVersion.isNone

def KqueryUpdates.plain : KqueryUpdates → Bool
  | .nil => true
  | .cons offset value rest => offset.plain && (value.plain && rest.plain)

end

/-- If a version is used as an expression, the one lies in the plain part of the grammar where the
other does. -/
theorem plain_of_asVersion {e : KqueryExpr} {version : KqueryVersion} (h : e.asVersion = some version)
    (he : e.plain = true) : version.plain = true := by
  cases e <;> cases h
  · rw [KqueryVersion.plain]
  · rw [KqueryExpr.plain] at he
    rw [KqueryVersion.plain]
    exact he

/-- What a version and its place in an expression are drawn as. -/
theorem drawn_asVersion {e : KqueryExpr} {version : KqueryVersion} (h : e.asVersion = some version)
    (baseAddress : List Int) : version.drawn baseAddress = e.drawn baseAddress := by
  cases e <;> cases h <;> rw [KqueryVersion.drawn, KqueryExpr.drawn]

/-- The leaf of a name shows an expression that reads as the name. -/
theorem readsAsExpr_iff {baseAddress : List Int} (name : Identifier) {e : KqueryExpr}
    (he : e.plain = true) :
    (drawnNode baseAddress name.text "" []).map (Option.map visible) = (e.drawn baseAddress).map (Option.map visible) ↔
      name.readsAsExpr e = true := by
  cases e with
  | identifier other =>
    rw [KqueryExpr.drawn]
    exact readsAs_iff name other
  | number number =>
    rw [KqueryExpr.drawn, drawnNode, drawnNode, RoseTree.map_node, RoseTree.map_node,
      RoseTree.node.injEq, name.nodeValue_eq, name.nodeTypeValue_eq]
    refine iff_of_false (fun h => ?_) (by simp [Identifier.readsAsExpr])
    have hvalue := congrArg Prod.fst (Option.some.inj h.1)
    have htype := congrArg (fun drawn => drawn.2.1) (Option.some.inj h.1)
    exact number_ne_name number name (Prod.ext hvalue.symm htype.symm)
  | numberWithType | neg =>
    rw [KqueryExpr.drawn]
    refine iff_of_false (fun h => ?_) (by simp [Identifier.readsAsExpr])
    exact absurd (congrArg RoseTree.label h) (Option.some_ne_none _)
  | definition name e =>
    rw [KqueryExpr.plain] at he
    cases he
  | version updates target =>
    rw [KqueryExpr.drawn]
    exact iff_of_false (leaf_ne_updated _ _) (by simp [Identifier.readsAsExpr])
  | _ =>
    rw [KqueryExpr.drawn]
    exact iff_of_false (leaf_ne_node (List.cons_ne_nil _ _)) (by simp [Identifier.readsAsExpr])

end Assure
