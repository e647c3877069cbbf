import Assure.Comparison.KqueryGrapher
import Assure.Library.Numbering

/-!
# What the grapher builds

`outline` is the tree of the operators and operands of an expression, where a defined name stands for
its definition. Of an expression that is `buildable` the visitor builds just that (`visitExpr_builds`):
a node for each operator and operand, numbered by one counter, operand after operand, with `Eq` and
`Select` before their operands.
-/

namespace Assure

open Assure.Library

/-! ## Operators and operands -/

/-- The operators and operands names stand for. -/
abbrev Outlines := String → Option (RoseTree String)

/-- The operands one after the other. -/
def outlineAll : List (StateM Outlines (RoseTree String)) → StateM Outlines (List (RoseTree String))
  | [] => return []
  | outline :: outlines => do
    let o ← outline
    let os ← outlineAll outlines
    return o :: os

/-- An operator over its operands. -/
def operator (text : String) (outlines : List (StateM Outlines (RoseTree String))) :
    StateM Outlines (RoseTree String) := do
  let os ← outlineAll outlines
  return .node text os

def NumberList.outline : NumberList → RoseTree String
  | .single number => .node number.text []
  | .cons number rest => .node "NumberList" [.node number.text [], rest.outline]

def ArrayInitializer.outline : ArrayInitializer → RoseTree String
  | .symbolic => .node "array_initializer" [.node "symbolic" []]
  | .numbers list => .node "array_initializer" [list.outline]

/-- The update list, if there is one, and what it updates. -/
def outlineUpdated (updates : List (StateM Outlines (RoseTree String)))
    (target : StateM Outlines (RoseTree String)) : StateM Outlines (RoseTree String) :=
  operator "version" <|
    (if updates.isEmpty then [] else [operator "update_list" updates]) ++ [target]

mutual

/-- **The operators and operands of an expression.** -/
def KqueryExpr.outline : KqueryExpr → StateM Outlines (RoseTree String)
  | .identifier name => do return ((← get) name.text).getD (.node name.text [])
  | .number number => return .node number.text []
  | .definition name e => do
    let o ← e.outline
    modify fun names => Function.update names name.text o
    return o
  | .numberWithType _ number => return .node number.text []
  | .arrayDeclaration _ _ _ _ init => return .node "array" [init.outline]
  | .arithmetic kind _ e1 e2 => operator kind.text [e1.outline, e2.outline]
  | .bitwise kind _ e1 e2 => operator kind.text [e1.outline, e2.outline]
  | .comparison kind _ e1 e2 => operator kind.text [e1.outline, e2.outline]
  | .bv kind _ e1 e2 => operator kind.text [e1.outline, e2.outline]
  | .extension kind _ e => operator kind.text [e.outline]
  | .read _ e version => operator "Read" [e.outline, version.outline]
  | .select _ e1 e2 e3 => operator "Select" [e1.outline, e2.outline, e3.outline]
  | .neg _ e => operator "Neg" [e.outline]
  | .arrayRead kind _ e version => operator kind.text [e.outline, version.outline]
  | .version updates target => outlineUpdated updates.outlines target.targetOutline

/-- The operators and operands of a version. -/
def KqueryVersion.outline : KqueryVersion → StateM Outlines (RoseTree String)
  | .updated updates target => outlineUpdated updates.outlines target.targetOutline
  | .name name => return .node name.text []
  | .definition _ e => operator "version" [e.outline]

/-- The same of what is updated, a name marked as target. -/
def KqueryVersion.targetOutline : KqueryVersion → StateM Outlines (RoseTree String)
  | .updated updates target => outlineUpdated updates.outlines target.targetOutline
  | .name name => return .node ("\"target : " ++ name.text ++ "\"") []
  | .definition _ e => operator "version" [e.outline]

/-- The pairs of an update list. -/
def KqueryUpdates.outlines : KqueryUpdates → List (StateM Outlines (RoseTree String))
  | .nil => []
  | .cons offset value rest =>
    operator "update_list_sub_node" [offset.outline, value.outline] :: rest.outlines

end

/-! ## Expressions that are built -/

/-- A version that is a name. -/
def KqueryVersion.isName : KqueryVersion → Bool
  | .name _ => true
  | _ => false

mutual

/-- **No negation and no number in parentheses**, and updates of arrays by name only. -/
def KqueryExpr.buildable : KqueryExpr → Bool
  | .identifier _ | .number _ | .arrayDeclaration .. => true
  | .numberWithType .. | .neg .. => false
  | .definition _ e | .extension _ _ e => e.buildable
  | .arithmetic _ _ e1 e2 | .bitwise _ _ e1 e2 | .comparison _ _ e1 e2 | .bv _ _ e1 e2 =>
    e1.buildable && e2.buildable
  | .read _ e version | .arrayRead _ _ e version => e.buildable && version.buildable
  | .select _ e1 e2 e3 => e1.buildable && (e2.buildable && e3.buildable)
  | .version updates target => updates.buildable && target.isName

def KqueryVersion.buildable : KqueryVersion → Bool
  | .updated updates target => updates.buildable && target.isName
  | .name _ => true
  | .definition _ e => e.buildable

def KqueryUpdates.buildable : KqueryUpdates → Bool
  | .nil => true
  | .cons offset value rest => offset.buildable && (value.buildable && rest.buildable)

end

/-! ## What the visitor builds -/

section

variable (baseAddress : List Int)

/-- `Eq` and `Select` are made before their operands. -/
def GraphNode.First (node : GraphNode) : Prop := node.value = "Eq" ∨ node.value = "Select"

/-- **One node for each operator and operand**, and no `None`. -/
def Shows (t : PyNode) (o : RoseTree String) : Prop :=
  t.map (Option.map GraphNode.value) = o.map fun token => some (nodeValue baseAddress token)

/-- The same of a tree of nodes. -/
structure Built (u : RoseTree GraphNode) (o : RoseTree String) : Prop where
  settled : ∀ node ∈ u.labels, node.Settled
  values : u.map GraphNode.value = o.map (nodeValue baseAddress)

/-- Several outlines. -/
structure BuiltAll (us : List (RoseTree GraphNode)) (os : List (RoseTree String)) : Prop where
  settled : ∀ node ∈ us.flatMap RoseTree.labels, node.Settled
  values : us.map (RoseTree.map GraphNode.value) = os.map (RoseTree.map (nodeValue baseAddress))

/-- The definitions that have been visited are those names stand for. -/
def Defined (definitions : String → Option PyNode) (names : Outlines) : Prop :=
  ∀ name, Option.Rel (fun t o => ∃ u : RoseTree GraphNode, t = u.map some ∧ Built baseAddress u o)
    (definitions name) (names name)

/-- **A visit builds an outline**, with numbers from the counter and no edge to the root yet. -/
def Builds (visit : Visit PyNode) (outline : StateM Outlines (RoseTree String)) : Prop :=
  ∀ s names, Defined baseAddress s.definitions names → ∃ u s',
    visit s = some (u.map some, s') ∧ u.label.edge = "" ∧
      u.Numbered GraphNode.nodeId GraphNode.First s.nodeId s'.nodeId ∧
        Built baseAddress u (outline names).1 ∧
          Defined baseAddress s'.definitions (outline names).2

/-- Visits one after the other. -/
def BuildsAll (visits : List (Visit PyNode)) (outlines : List (StateM Outlines (RoseTree String))) :
    Prop :=
  ∀ s names, Defined baseAddress s.definitions names → ∃ us s',
    visitAll visits s = some (us.map (RoseTree.map some), s') ∧ (∀ u ∈ us, u.label.edge = "") ∧
      RoseTree.NumberedAll GraphNode.nodeId GraphNode.First s.nodeId s'.nodeId us ∧
        BuiltAll baseAddress us (outlineAll outlines names).1 ∧
          Defined baseAddress s'.definitions (outlineAll outlines names).2

variable {baseAddress}

/-- A node is built from its outline where its text is the outlined one and its operands are built
from theirs. -/
theorem Built.node {node : GraphNode} {us : List (RoseTree GraphNode)} {text : String}
    {os : List (RoseTree String)} (hvalue : node.value = nodeValue baseAddress text)
    (h : BuiltAll baseAddress us os) : Built baseAddress (.node node us) (.node text os) where
  settled := by
    intro a ha
    rw [RoseTree.labels_node, List.mem_cons] at ha
    rcases ha with rfl | ha
    · rw [GraphNode.Settled, hvalue]
      exact nodeValue_settled baseAddress text
    · exact h.settled a ha
  values := by
    rw [RoseTree.map_node, RoseTree.map_node, hvalue, h.values]

/-- Operands are built position by position. -/
theorem BuiltAll.cons {u : RoseTree GraphNode} {us : List (RoseTree GraphNode)}
    {o : RoseTree String} {os : List (RoseTree String)} (h : Built baseAddress u o)
    (hall : BuiltAll baseAddress us os) : BuiltAll baseAddress (u :: us) (o :: os) where
  settled := by
    intro node hnode
    rw [List.flatMap_cons, List.mem_append] at hnode
    rcases hnode with hnode | hnode
    · exact h.settled node hnode
    · exact hall.settled node hnode
  values := by
    rw [List.map_cons, List.map_cons, h.values, hall.values]

/-- No operands are built from none. -/
theorem BuiltAll.nil : BuiltAll baseAddress [] [] := ⟨by simp, rfl⟩

/-- Visiting no operand builds none. -/
theorem BuildsAll.nil : BuildsAll baseAddress [] [] := by
  intro s names hs
  exact ⟨[], s, rfl, by simp, .nil (Nat.le_refl _), .nil, hs⟩

/-- Visits of operands one after the other build what each of them builds; the state is handed on
from one to the next. -/
theorem BuildsAll.cons {visit : Visit PyNode} {visits : List (Visit PyNode)}
    {outline : StateM Outlines (RoseTree String)}
    {outlines : List (StateM Outlines (RoseTree String))} (h : Builds baseAddress visit outline)
    (hall : BuildsAll baseAddress visits outlines) :
    BuildsAll baseAddress (visit :: visits) (outline :: outlines) := by
  intro s names hs
  obtain ⟨u, s1, hvisit, hedge, hnum, hbuilt, hs1⟩ := h s names hs
  obtain ⟨us, s2, hvisits, hedges, hnums, hbuilts, hs2⟩ := hall s1 (outline names).2 hs1
  refine ⟨u :: us, s2, ?_, List.forall_mem_cons.mpr ⟨hedge, hedges⟩, .cons hnum hnums,
    .cons hbuilt hbuilts, hs2⟩
  rw [visitAll, Visit.bind_run, hvisit, Option.bind_some, Visit.bind_run, hvisits]
  rfl

/-- The edges to new nodes have no label. -/
theorem addEdges_run (node : GraphNode) (s : GrapherState) {us : List (RoseTree GraphNode)}
    (h : ∀ u ∈ us, u.label.edge = "") :
    addEdges node (us.map (RoseTree.map some)) s =
      some ((RoseTree.node node us).map some, s) := by
  have hall : (us.map (RoseTree.map some)).mapM (addEdge "") s =
      some (us.map (RoseTree.map some), s) := by
    induction us with
    | nil => rfl
    | cons u us ih =>
      obtain ⟨⟨nodeId, value, typeValue, type, edge⟩, cs⟩ := u
      obtain ⟨rfl, hus⟩ := List.forall_mem_cons.mp h
      rw [List.map_cons, RoseTree.map_node, List.mapM_cons]
      show ((List.mapM (addEdge "") (us.map (RoseTree.map some))) s).bind _ = _
      rw [ih hus]
      rfl
  rw [addEdges, Visit.bind_run, hall, RoseTree.map_node]
  rfl

/-- Operands first. -/
theorem Builds.operandsFirst {value type : String} {visits : List (Visit PyNode)}
    {outlines : List (StateM Outlines (RoseTree String))}
    (hvalue : nodeValue baseAddress value ≠ "Eq" ∧ nodeValue baseAddress value ≠ "Select")
    (h : BuildsAll baseAddress visits outlines) :
    Builds baseAddress (operandsFirst baseAddress value type visits) (operator value outlines) := by
  intro s names hs
  obtain ⟨us, s1, hvisits, hedges, hnums, hbuilts, hs1⟩ := h s names hs
  refine ⟨.node ⟨s1.nodeId + 1, nodeValue baseAddress value, nodeTypeValue baseAddress value type,
    nodeTypeValue baseAddress value type, ""⟩ us, { s1 with nodeId := s1.nodeId + 1 }, ?_, rfl,
    .after ?_ hnums (Nat.lt_succ_self _) (Nat.le_refl _), .node rfl hbuilts, hs1⟩
  · rw [Assure.operandsFirst, Visit.bind_run, hvisits, Option.bind_some, Visit.bind_run,
      newNode_run]
    exact addEdges_run _ _ hedges
  · rintro (heq | heq)
    · exact hvalue.1 heq
    · exact hvalue.2 heq

/-- The node first. -/
theorem Builds.nodeFirst {value type : String} {visits : List (Visit PyNode)}
    {outlines : List (StateM Outlines (RoseTree String))}
    (h : BuildsAll baseAddress visits outlines) :
    Builds baseAddress (nodeFirst baseAddress value type visits) (operator value outlines) := by
  intro s names hs
  obtain ⟨us, s1, hvisits, hedges, hnums, hbuilts, hs1⟩ :=
    h { s with nodeId := s.nodeId + 1 } names hs
  refine ⟨.node ⟨s.nodeId + 1, nodeValue baseAddress value, nodeTypeValue baseAddress value type,
    nodeTypeValue baseAddress value type, ""⟩ us, s1, ?_, rfl, .before (Nat.lt_succ_self _) hnums,
    .node rfl hbuilts, hs1⟩
  rw [Assure.nodeFirst, Visit.bind_run, newNode_run, Option.bind_some, Visit.bind_run, hvisits]
  exact addEdges_run _ _ hedges

/-- Making a leaf builds the outline of a leaf. -/
theorem Builds.leafNode (value type : String) :
    Builds baseAddress (leafNode baseAddress value type) (operator value []) := by
  intro s names hs
  exact ⟨.node ⟨s.nodeId + 1, nodeValue baseAddress value, nodeTypeValue baseAddress value type,
    nodeTypeValue baseAddress value type, ""⟩ [], { s with nodeId := s.nodeId + 1 }, rfl, rfl,
    .before (Nat.lt_succ_self _) (.nil (Nat.le_refl _)), .node rfl .nil, hs⟩

/-! ## Copies -/

/-- What the graph holds of a node, and the field a copy is made from. -/
def GraphNode.shown (node : GraphNode) : String × String × String × String :=
  (node.value, node.typeValue, node.type, node.edge)

/-- The same of its copy. -/
def GraphNode.copied (node : GraphNode) : String × String × String × String :=
  (node.value, node.typeValue, node.typeValue, "")

mutual

/-- **A copy keeps the fields of the objects**, and nothing that was set in the graph. -/
theorem deepCopy_run : ∀ (u : RoseTree GraphNode) (s : GrapherState), (∀ a ∈ u.labels, a.Settled) →
    ∃ (v : RoseTree GraphNode) (s' : GrapherState),
      deepCopy baseAddress (u.map some) s = some (v.map some, s') ∧
      v.Numbered GraphNode.nodeId GraphNode.First s.nodeId s'.nodeId ∧
        v.map GraphNode.shown = u.map GraphNode.copied ∧ s'.definitions = s.definitions
  | .node node us, s, h => by
    rw [RoseTree.labels_node, List.forall_mem_cons] at h
    obtain ⟨vs, s', hrun, hnums, hshown, hdefs⟩ :=
      deepCopyAll_run us { s with nodeId := s.nodeId + 1 } h.2
    refine ⟨.node ⟨s.nodeId + 1, node.value, node.typeValue, node.typeValue, ""⟩ vs, s', ?_,
      .before (Nat.lt_succ_self _) hnums, ?_, hdefs⟩
    · rw [RoseTree.map_node, RoseTree.map_node, deepCopy, Visit.bind_run, newNode_run,
        h.1.nodeValue_eq, h.1.nodeTypeValue_eq, Option.bind_some, Visit.bind_run, hrun]
      rfl
    · rw [RoseTree.map_node, RoseTree.map_node, hshown]
      rfl

/-- Copying a list of trees gives new numbers to all their nodes, in preorder, and leaves what a
copy shows. -/
theorem deepCopyAll_run : ∀ (us : List (RoseTree GraphNode)) (s : GrapherState),
    (∀ a ∈ us.flatMap RoseTree.labels, a.Settled) →
      ∃ (vs : List (RoseTree GraphNode)) (s' : GrapherState),
        deepCopyAll baseAddress (us.map (RoseTree.map some)) s =
          some (vs.map (RoseTree.map some), s') ∧
        RoseTree.NumberedAll GraphNode.nodeId GraphNode.First s.nodeId s'.nodeId vs ∧
          vs.map (RoseTree.map GraphNode.shown) = us.map (RoseTree.map GraphNode.copied) ∧
            s'.definitions = s.definitions
  | [], s, _ => ⟨[], s, by rw [List.map_nil, deepCopyAll]; rfl, .nil (Nat.le_refl _), rfl, rfl⟩
  | u :: us, s, h => by
    rw [List.flatMap_cons, List.forall_mem_append] at h
    obtain ⟨v, s1, hrun, hnum, hshown, hdefs⟩ := deepCopy_run u s h.1
    obtain ⟨vs, s2, hruns, hnums, hshowns, hdefs2⟩ := deepCopyAll_run us s1 h.2
    refine ⟨v :: vs, s2, ?_, .cons hnum hnums, ?_, hdefs2.trans hdefs⟩
    · rw [List.map_cons, deepCopyAll, Visit.bind_run, hrun, Option.bind_some, Visit.bind_run,
        hruns]
      rfl
    · rw [List.map_cons, List.map_cons, hshown, hshowns]

end

/-- A tree with the values of another one. -/
theorem Built.of_shown {u v : RoseTree GraphNode} {o : RoseTree String}
    (h : v.map GraphNode.shown = u.map GraphNode.copied) (hu : Built baseAddress u o) :
    Built baseAddress v o where
  settled := by
    intro a ha
    have hmem : a.shown ∈ u.labels.map GraphNode.copied := by
      rw [← RoseTree.labels_map, ← h, RoseTree.labels_map]
      exact List.mem_map_of_mem ha
    obtain ⟨b, hb, heq⟩ := List.mem_map.mp hmem
    have hvalue : b.value = a.value := congrArg Prod.fst heq
    rw [GraphNode.Settled, ← hvalue]
    exact hu.settled b hb
  values := by
    have hfst := congrArg (RoseTree.map Prod.fst) h
    rw [RoseTree.map_map, RoseTree.map_map] at hfst
    exact hfst.trans hu.values

/-! ## The visits of the grammar -/

/-- A name builds its outline, by the copy of what it was defined as or by a leaf. -/
theorem Builds.identifier (name : Identifier) :
    Builds baseAddress (visitIdentifier baseAddress name.text)
      (KqueryExpr.identifier name).outline := by
  intro s names hs
  have houtline : (KqueryExpr.identifier name).outline names =
      ((names name.text).getD (.node name.text []), names) := by
    rw [KqueryExpr.outline]
    rfl
  rw [visitIdentifier_run, houtline]
  cases hdef : s.definitions name.text with
  | none =>
    have hrel := hs name.text
    rw [hdef] at hrel
    generalize hname : names name.text = named at hrel
    cases hrel
    exact Builds.leafNode name.text "" s names hs
  | some t =>
    have hrel := hs name.text
    rw [hdef] at hrel
    generalize hname : names name.text = named at hrel
    cases hrel with
    | some hbuilt =>
      obtain ⟨u, rfl, hu⟩ := hbuilt
      obtain ⟨v, s', hcopy, hnum, hshown, hdefs⟩ := deepCopy_run u s hu.settled
      refine ⟨v, s', hcopy, ?_, hnum, .of_shown hshown hu, by rwa [hdefs]⟩
      have hroot := congrArg RoseTree.label hshown
      rw [RoseTree.label_map, RoseTree.label_map] at hroot
      exact congrArg (fun shown => shown.2.2.2) hroot

/-- Defining a name keeps the trees and the outlines of the names in step. -/
theorem Builds.definition {visit : Visit PyNode} {outline : StateM Outlines (RoseTree String)}
    (h : Builds baseAddress visit outline) (name : String) :
    Builds baseAddress (visitDefinition name visit)
      (do
        let o ← outline
        modify fun names => Function.update names name o
        return o) := by
  intro s names hs
  obtain ⟨u, s', hrun, hedge, hnum, hbuilt, hs'⟩ := h s names hs
  refine ⟨u, { s' with definitions := Function.update s'.definitions name (u.map some) }, ?_, hedge,
    hnum, hbuilt, ?_⟩
  · rw [visitDefinition, Visit.bind_run, hrun]
    rfl
  · intro other
    show Option.Rel _ (Function.update s'.definitions name (some (u.map some)) other)
      (Function.update (outline names).2 name (some (outline names).1) other)
    by_cases hother : other = name
    · subst hother
      rw [Function.update_self, Function.update_self]
      exact .some ⟨u, rfl, hbuilt⟩
    · rw [Function.update_of_ne hother, Function.update_of_ne hother]
      exact hs' other

/-- A node is left without a parent. -/
theorem Builds.skipNode {visit : Visit PyNode} {outline : StateM Outlines (RoseTree String)}
    (h : Builds baseAddress visit outline) (value type : String) :
    Builds baseAddress (do
      let _ ← newNode baseAddress value type
      visit) outline := by
  intro s names hs
  obtain ⟨u, s', hrun, hedge, hnum, hbuilt, hs'⟩ := h { s with nodeId := s.nodeId + 1 } names hs
  exact ⟨u, s', hrun, hedge, hnum.mono (Nat.le_succ _) (Nat.le_refl _), hbuilt, hs'⟩

/-- The name of an operator stands in its node as it is, since the tables only translate offsets and
constant arrays. -/
theorem nodeValue_of_operator {text : String} (h : checkKleeOffset text = false)
    (hstart : processValue text = text) : nodeValue baseAddress text = text := by
  rw [nodeValue, h]
  exact hstart

/-- A list of numbers builds its outline, number by number. -/
theorem Builds.numberList : ∀ list : NumberList,
    Builds baseAddress (visitNumberList baseAddress list) (pure list.outline)
  | .single number => (Builds.leafNode number.text "").skipNode "number_list" ""
  | .cons number rest => by
    have hvalue : nodeValue baseAddress "NumberList" = "NumberList" :=
      nodeValue_of_operator (by decide +kernel) (by decide +kernel)
    have hpair : Builds baseAddress (Assure.operandsFirst baseAddress "NumberList" "" _) _ :=
      Builds.operandsFirst (by rw [hvalue]; decide)
        (.cons (Builds.leafNode number.text "") (.cons (Builds.numberList rest) .nil))
    exact hpair.skipNode "number_list" ""

/-- So does an initial value of an array. -/
theorem Builds.arrayInitializer : ∀ init : ArrayInitializer,
    Builds baseAddress (visitArrayInitializer baseAddress init) (pure init.outline)
  | .symbolic => Builds.nodeFirst (.cons (Builds.leafNode "symbolic" "") .nil)
  | .numbers list => Builds.nodeFirst (.cons (Builds.numberList list) .nil)

/-- So does the declaration of an array, whose initial value is its one operand. -/
theorem Builds.arrayDeclaration (name : String) (init : ArrayInitializer) :
    Builds baseAddress (visitArrayDeclaration baseAddress name init)
      (pure (.node "array" [init.outline])) :=
  Builds.nodeFirst (.cons (Builds.arrayInitializer init) .nil)

/-- The operators of the grammar are labels of their own, and only two are made first. -/
theorem arithmetic_value (kind : ArithmeticKind) :
    nodeValue baseAddress kind.text ≠ "Eq" ∧ nodeValue baseAddress kind.text ≠ "Select" := by
  rw [nodeValue_of_operator (by cases kind <;> decide +kernel) (by cases kind <;> decide +kernel)]
  cases kind <;> decide

/-- A bitwise operator is neither of the two operators that the normalising loop looks for. -/
theorem bitwise_value (kind : BitwiseKind) :
    nodeValue baseAddress kind.text ≠ "Eq" ∧ nodeValue baseAddress kind.text ≠ "Select" := by
  rw [nodeValue_of_operator (by cases kind <;> decide +kernel) (by cases kind <;> decide +kernel)]
  cases kind <;> decide

/-- Neither is an extension. -/
theorem extension_value (kind : ExtensionKind) :
    nodeValue baseAddress kind.text ≠ "Eq" ∧ nodeValue baseAddress kind.text ≠ "Select" := by
  rw [nodeValue_of_operator (by cases kind <;> decide +kernel) (by cases kind <;> decide +kernel)]
  cases kind <;> decide

/-- Neither is a read of several bytes. -/
theorem arrayRead_value (kind : ArrayReadKind) :
    nodeValue baseAddress kind.text ≠ "Eq" ∧ nodeValue baseAddress kind.text ≠ "Select" := by
  rw [nodeValue_of_operator (by cases kind <;> decide +kernel) (by cases kind <;> decide +kernel)]
  cases kind <;> decide

/-- Neither is a read of one byte. -/
theorem read_value :
    nodeValue baseAddress "Read" ≠ "Eq" ∧ nodeValue baseAddress "Read" ≠ "Select" := by
  rw [nodeValue_of_operator (by decide +kernel) (by decide +kernel)]
  decide

/-- A `Concat` or an `Extract` with a type builds its outline where both operands are there, like
the other operators. -/
theorem Builds.bv (kind : BvKind) (type : Option String) {visit1 visit2 : Visit PyNode}
    {outlines : List (StateM Outlines (RoseTree String))}
    (h : BuildsAll baseAddress [visit1, visit2] outlines) :
    Builds baseAddress (visitBvExpr baseAddress kind type visit1 visit2)
      (operator kind.text outlines) := by
  cases type with
  | none => exact Builds.nodeFirst h
  | some type =>
    intro s names hs
    obtain ⟨us, s1, hvisits, hedges, hnums, hbuilts, hs1⟩ :=
      h { s with nodeId := s.nodeId + 1 } names hs
    refine ⟨.node ⟨s.nodeId + 1, nodeValue baseAddress kind.text,
      nodeTypeValue baseAddress kind.text type, nodeTypeValue baseAddress kind.text type, ""⟩ us,
      s1, ?_, rfl, .before (Nat.lt_succ_self _) hnums, .node rfl hbuilts, hs1⟩
    rw [visitBvExpr, Visit.bind_run, newNode_run, Option.bind_some, Visit.bind_run, hvisits,
      RoseTree.map_node]
    rfl

/-- Another label at the root with the same value. -/
theorem Built.mapRoot {f : GraphNode → GraphNode} (hf : ∀ node, (f node).value = node.value)
    {u : RoseTree GraphNode} {o : RoseTree String} (h : Built baseAddress u o) :
    Built baseAddress (u.mapRoot f) o where
  settled := by
    obtain ⟨node, us⟩ := u
    intro a ha
    rw [RoseTree.mapRoot, RoseTree.labels_node, List.mem_cons] at ha
    rcases ha with rfl | ha
    · rw [GraphNode.Settled, hf]
      exact h.settled node (by simp)
    · exact h.settled a (by simp [ha])
  values := by
    rw [RoseTree.map_mapRoot hf]
    exact h.values

/-- An edge to a tree of nodes can always be added: it labels the root of the tree and nothing else.
-/
theorem addEdge_run (edge : String) (s : GrapherState) : ∀ u : RoseTree GraphNode,
    addEdge edge (u.map some) s =
      some ((u.mapRoot (GraphNode.withEdge edge)).map some, s)
  | .node node us => by
    rw [RoseTree.mapRoot, RoseTree.map_node, RoseTree.map_node]
    rfl

/-- Marking a tree as a constant changes a field of its root only. -/
theorem markConcrete_run (s : GrapherState) : ∀ u : RoseTree GraphNode,
    markConcrete (u.map some) s =
      some ((u.mapRoot fun node => { node with type := "concrete_klee_offset" }).map some, s)
  | .node node us => by
    rw [RoseTree.mapRoot, RoseTree.map_node, RoseTree.map_node]
    rfl

/-- What an offset may be marked with. -/
def offsetMark (offsetText : String) (node : GraphNode) : GraphNode :=
  if isConcreteOffset offsetText then { node with type := "concrete_klee_offset" } else node

/-- Marking an offset changes its root only, and nothing at all where the offset is not a number. -/
theorem markOffset_run (offsetText : String) (s : GrapherState) (u : RoseTree GraphNode) :
    markOffset offsetText (u.map some) s =
      some ((u.mapRoot (offsetMark offsetText)).map some, s) := by
  unfold markOffset offsetMark
  split
  · exact markConcrete_run s u
  · obtain ⟨node, us⟩ := u
    rfl

/-- An update visits its offset and its value and joins them under a node that was numbered before
both. -/
theorem visitUpdate_run {offsetText : String} {visitOffset visitValue : Visit PyNode}
    {s s1 s2 : GrapherState} {u1 u2 : RoseTree GraphNode}
    (hoffset : visitOffset { s with nodeId := s.nodeId + 1 } = some (u1.map some, s1))
    (hvalue : visitValue s1 = some (u2.map some, s2)) :
    visitUpdate baseAddress offsetText visitOffset visitValue s =
      some ((RoseTree.node ⟨s.nodeId + 1, nodeValue baseAddress "update_list_sub_node",
        nodeTypeValue baseAddress "update_list_sub_node" "",
        nodeTypeValue baseAddress "update_list_sub_node" "", ""⟩
        [(u1.mapRoot (offsetMark offsetText)).mapRoot (GraphNode.withEdge "offset"),
          u2.mapRoot (GraphNode.withEdge "value")]).map some, s2) := by
  rw [visitUpdate, Visit.bind_run, newNode_run, Option.bind_some, Visit.bind_run, hoffset,
    Option.bind_some, Visit.bind_run, markOffset_run, Option.bind_some, Visit.bind_run, hvalue,
    Option.bind_some, Visit.bind_run, addEdge_run, Option.bind_some, Visit.bind_run, addEdge_run,
    Option.bind_some, RoseTree.map_node]
  rfl

/-- An update builds its outline, in which the labels of the two edges do not show. -/
theorem Builds.update (offsetText : String) {visitOffset visitValue : Visit PyNode}
    {offset value : StateM Outlines (RoseTree String)}
    (hoffset : Builds baseAddress visitOffset offset)
    (hvalue : Builds baseAddress visitValue value) :
    Builds baseAddress (visitUpdate baseAddress offsetText visitOffset visitValue)
      (operator "update_list_sub_node" [offset, value]) := by
  intro s names hs
  obtain ⟨u1, s1, hrun1, -, hnum1, hbuilt1, hs1⟩ :=
    hoffset { s with nodeId := s.nodeId + 1 } names hs
  obtain ⟨u2, s2, hrun2, -, hnum2, hbuilt2, hs2⟩ := hvalue s1 (offset names).2 hs1
  have hmarkId : ∀ node, (offsetMark offsetText node).nodeId = node.nodeId := by
    intro node
    unfold offsetMark
    split <;> rfl
  have hmarkValue : ∀ node, (offsetMark offsetText node).value = node.value := by
    intro node
    unfold offsetMark
    split <;> rfl
  have hmarkFirst : ∀ node, (offsetMark offsetText node).First → node.First := by
    intro node h
    rwa [GraphNode.First, hmarkValue] at h
  have hnum1' := (hnum1.mapRoot hmarkId hmarkFirst).mapRoot
    (f := GraphNode.withEdge "offset") (fun _ => rfl) (fun _ h => h)
  have hnum2' := hnum2.mapRoot
    (f := GraphNode.withEdge "value") (fun _ => rfl) (fun _ h => h)
  refine ⟨_, s2, visitUpdate_run hrun1 hrun2, rfl, .before (Nat.lt_succ_self _)
    (.cons hnum1' (.cons hnum2' (.nil (Nat.le_refl _)))), .node rfl (.cons ?_ (.cons ?_ .nil)), hs2⟩
  · exact (hbuilt1.mapRoot hmarkValue).mapRoot (f := GraphNode.withEdge "offset") fun _ => rfl
  · exact hbuilt2.mapRoot (f := GraphNode.withEdge "value") fun _ => rfl

/-- A read through updates builds its outline; without updates that is the leaf of the array. -/
theorem Builds.updated {updates : List (Visit PyNode)}
    {outlines : List (StateM Outlines (RoseTree String))} (name : String)
    (hempty : updates.isEmpty = outlines.isEmpty) (h : BuildsAll baseAddress updates outlines) :
    Builds baseAddress (visitUpdated baseAddress updates name)
      (outlineUpdated outlines (operator ("\"target : " ++ name ++ "\"") [])) := by
  apply Builds.nodeFirst
  rw [hempty]
  split
  · exact .cons (Builds.leafNode _ "") .nil
  · exact .cons (Builds.nodeFirst h) (.cons (Builds.leafNode _ "") .nil)

/-- There are as many visits of updates as there are updates to outline, so both branch alike. -/
theorem visitUpdates_isEmpty (updates : KqueryUpdates) :
    (visitUpdates baseAddress updates).isEmpty = updates.outlines.isEmpty := by
  cases updates <;> rw [visitUpdates, KqueryUpdates.outlines] <;> rfl

mutual

/-- **What the visitor builds**: of a buildable expression its outline. -/
theorem visitExpr_builds : ∀ e : KqueryExpr, e.buildable = true →
    Builds baseAddress (visitExpr baseAddress e) e.outline
  | .identifier name, _ => by
    rw [visitExpr]
    exact Builds.identifier name
  | .number number, _ => by
    rw [visitExpr, KqueryExpr.outline]
    exact Builds.leafNode number.text ""
  | .definition name e, h => by
    rw [KqueryExpr.buildable] at h
    rw [visitExpr, KqueryExpr.outline]
    exact (visitExpr_builds e h).definition name.text
  | .numberWithType .., h => by
    rw [KqueryExpr.buildable] at h
    cases h
  | .arrayDeclaration name _ _ _ init, _ => by
    rw [visitExpr, KqueryExpr.outline]
    exact Builds.arrayDeclaration name.text init
  | .arithmetic kind type e1 e2, h => by
    rw [KqueryExpr.buildable, Bool.and_eq_true] at h
    rw [visitExpr, KqueryExpr.outline]
    exact Builds.operandsFirst (arithmetic_value kind)
      (.cons (visitExpr_builds e1 h.1) (.cons (visitExpr_builds e2 h.2) .nil))
  | .bitwise kind type e1 e2, h => by
    rw [KqueryExpr.buildable, Bool.and_eq_true] at h
    rw [visitExpr, KqueryExpr.outline]
    exact Builds.operandsFirst (bitwise_value kind)
      (.cons (visitExpr_builds e1 h.1) (.cons (visitExpr_builds e2 h.2) .nil))
  | .comparison kind type e1 e2, h => by
    rw [KqueryExpr.buildable, Bool.and_eq_true] at h
    rw [visitExpr, KqueryExpr.outline]
    exact Builds.nodeFirst (.cons (visitExpr_builds e1 h.1) (.cons (visitExpr_builds e2 h.2) .nil))
  | .bv kind type e1 e2, h => by
    rw [KqueryExpr.buildable, Bool.and_eq_true] at h
    rw [visitExpr, KqueryExpr.outline]
    exact Builds.bv kind type (.cons (visitExpr_builds e1 h.1) (.cons (visitExpr_builds e2 h.2) .nil))
  | .extension kind type e, h => by
    rw [KqueryExpr.buildable] at h
    rw [visitExpr, KqueryExpr.outline]
    exact Builds.operandsFirst (extension_value kind) (.cons (visitExpr_builds e h) .nil)
  | .read type e version, h => by
    rw [KqueryExpr.buildable, Bool.and_eq_true] at h
    rw [visitExpr, KqueryExpr.outline]
    exact Builds.operandsFirst read_value
      (.cons (visitExpr_builds e h.1) (.cons (visitVersion_builds version h.2) .nil))
  | .select type e1 e2 e3, h => by
    rw [KqueryExpr.buildable, Bool.and_eq_true, Bool.and_eq_true] at h
    rw [visitExpr, KqueryExpr.outline]
    exact Builds.nodeFirst (.cons (visitExpr_builds e1 h.1)
      (.cons (visitExpr_builds e2 h.2.1) (.cons (visitExpr_builds e3 h.2.2) .nil)))
  | .neg .., h => by
    rw [KqueryExpr.buildable] at h
    cases h
  | .arrayRead kind type e version, h => by
    rw [KqueryExpr.buildable, Bool.and_eq_true] at h
    rw [visitExpr, KqueryExpr.outline]
    exact Builds.operandsFirst (arrayRead_value kind)
      (.cons (visitExpr_builds e h.1) (.cons (visitVersion_builds version h.2) .nil))
  | .version updates target, h => by
    rw [KqueryExpr.buildable, Bool.and_eq_true] at h
    cases target with
    | name name =>
      rw [visitExpr, KqueryExpr.outline, KqueryVersion.targetOutline, KqueryVersion.text]
      exact Builds.updated name.text (visitUpdates_isEmpty updates) (visitUpdates_builds updates h.1)
    | _ => cases h.2

/-- A version of an array that can be drawn builds its outline, by the mutual recursion with its
list of updates. -/
theorem visitVersion_builds : ∀ version : KqueryVersion, version.buildable = true →
    Builds baseAddress (visitVersion baseAddress version) version.outline
  | .updated updates target, h => by
    rw [KqueryVersion.buildable, Bool.and_eq_true] at h
    cases target with
    | name name =>
      rw [visitVersion, KqueryVersion.outline, KqueryVersion.targetOutline, KqueryVersion.text]
      exact Builds.updated name.text (visitUpdates_isEmpty updates) (visitUpdates_builds updates h.1)
    | _ => cases h.2
  | .name name, _ => by
    rw [visitVersion, KqueryVersion.outline]
    exact Builds.leafNode name.text ""
  | .definition name e, h => by
    rw [KqueryVersion.buildable] at h
    rw [visitVersion, KqueryVersion.outline]
    exact Builds.nodeFirst (.cons (visitExpr_builds e h) .nil)

/-- A list of updates that can be drawn builds its outlines. -/
theorem visitUpdates_builds : ∀ updates : KqueryUpdates, updates.buildable = true →
    BuildsAll baseAddress (visitUpdates baseAddress updates) updates.outlines
  | .nil, _ => by
    rw [visitUpdates, KqueryUpdates.outlines]
    exact .nil
  | .cons offset value rest, h => by
    rw [KqueryUpdates.buildable, Bool.and_eq_true, Bool.and_eq_true] at h
    rw [visitUpdates, KqueryUpdates.outlines]
    exact .cons (Builds.update offset.text (visitExpr_builds offset h.1)
      (visitExpr_builds value h.2.1)) (visitUpdates_builds rest h.2.2)

end

end

end Assure
