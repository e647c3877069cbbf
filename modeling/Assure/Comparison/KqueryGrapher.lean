import Assure.Comparison.KqueryGrammar
import Assure.Comparison.Kquery
import Mathlib.Logic.Function.Basic
import Mathlib.Algebra.Ring.Int.Defs

/-!
# The grapher

`KqueryASTVisitor` walks a parse tree and makes a node of the graph for each operator and operand.
An edge is added once, from a new node to nodes that have no parent yet, so the graph under a node is
a tree and is kept with the node. A visit can raise, and it can return `None`, which as an operand
makes most of its parents raise.

The use of a defined name gives a copy of the node of its definition. A copy is made from the fields
of the `Node` objects: an attribute or an edge label set in the graph alone is not copied.
-/

namespace Assure

open Assure.Library

/-! ## Nodes -/

/-- **A node**: the fields of the `Node` object, the attribute `type` in the graph and the label of the
edge that leads to it, empty where there is none. -/
structure GraphNode where
  nodeId : Nat
  value : String
  typeValue : String
  type : String
  edge : String
  deriving DecidableEq

/-- **What a visit returns**: `None` or a node with its children. -/
abbrev PyNode := RoseTree (Option GraphNode)

/-- `None` -/
def PyNode.none : PyNode := .node .none []

/-- The state of a visitor: the last node id and the nodes of the definitions. -/
structure GrapherState where
  nodeId : Nat
  definitions : String → Option PyNode

/-- No definitions yet. -/
def GrapherState.fresh : GrapherState := ⟨0, fun _ => .none⟩

/-- **A visit**, which may raise. -/
abbrev Visit := StateT GrapherState Option

/-- A visit and then another one. -/
theorem Visit.bind_run {α β : Type} (visit : Visit α) (next : α → Visit β) (s : GrapherState) :
    (visit >>= next) s = (visit s).bind fun result => next result.1 result.2 := rfl

/-- `re.fullmatch(r'\d{20}', value)` -/
def checkKleeOffset (value : String) : Bool :=
  value.toList.length == 20 && value.toList.all Char.isDigit

/-- `fetch_base_offset` -/
def fetchBaseOffset (baseAddress : List Int) (value : String) : Option String :=
  baseAddress.findSome? fun address =>
    let offset := (Nat.ofDigitChars 10 value.toList 0 : Int) - (2 ^ 64 - address)
    if 0 ≤ offset ∧ offset ≤ 100 then some (Nat.repr offset.toNat) else .none

/-- `process_value` -/
def processValue (value : String) : String :=
  if "const_arr".toList <+: value.toList then "const_arr" else value

section

variable (baseAddress : List Int)

/-- The `value` field of a new node. -/
def nodeValue (value : String) : String :=
  if checkKleeOffset value then (fetchBaseOffset baseAddress value).getD "klee_offset"
  else processValue value

/-- The `type_value` field of a new node. -/
def nodeTypeValue (value type : String) : String :=
  if checkKleeOffset value then
    match fetchBaseOffset baseAddress value with
    | some _ => "normal_klee_offset"
    | .none => "other_klee_offset"
  else type

/-- **`Node(value, type_value, G)`** -/
def newNode (value type : String) : Visit GraphNode := do
  let s ← get
  set { s with nodeId := s.nodeId + 1 }
  let typeValue := nodeTypeValue baseAddress value type
  return ⟨s.nodeId + 1, nodeValue baseAddress value, typeValue, typeValue, ""⟩

mutual

/-- **`deep_copy`** -/
def deepCopy : PyNode → Visit PyNode
  | .node .none _ => failure
  | .node (some node) children => do
    let copied ← newNode baseAddress node.value node.typeValue
    let copies ← deepCopyAll children
    return .node (some copied) copies

/-- The copies of the children. -/
def deepCopyAll : List PyNode → Visit (List PyNode)
  | [] => return []
  | child :: children => do
    let copy ← deepCopy child
    let copies ← deepCopyAll children
    return copy :: copies

end

/-- The node at the end of an edge. -/
def GraphNode.withEdge (label : String) (node : GraphNode) : GraphNode := { node with edge := label }

/-- `G.add_edge(…, child.node_id, label=label)` -/
def addEdge (label : String) : PyNode → Visit PyNode
  | .node .none _ => failure
  | .node (some child) children => return .node (some (child.withEdge label)) children

/-- Edges from a node to all its children. -/
def addEdges (node : GraphNode) (children : List PyNode) : Visit PyNode := do
  let children ← children.mapM (addEdge "")
  return .node (some node) children

/-- The children one after the other. -/
def visitAll : List (Visit PyNode) → Visit (List PyNode)
  | [] => return []
  | visit :: visits => do
    let child ← visit
    let children ← visitAll visits
    return child :: children

/-- Visit the operands, then make the node. -/
def operandsFirst (value type : String) (visits : List (Visit PyNode)) : Visit PyNode := do
  let children ← visitAll visits
  let node ← newNode baseAddress value type
  addEdges node children

/-- Make the node, then visit the operands. -/
def nodeFirst (value type : String) (visits : List (Visit PyNode)) : Visit PyNode := do
  let node ← newNode baseAddress value type
  let children ← visitAll visits
  addEdges node children

/-- A node without operands. -/
def leafNode (value type : String) : Visit PyNode := do
  let node ← newNode baseAddress value type
  return .node (some node) []

/-! ## The visitor's methods -/

def visitIdentifier (identifier : String) : Visit PyNode := do
  match (← get).definitions identifier with
  | some node => deepCopy baseAddress node
  | .none => leafNode baseAddress identifier ""

/-- A name with a definition is a copy of it, and a name without one is a leaf. -/
theorem visitIdentifier_run (name : String) (s : GrapherState) :
    visitIdentifier baseAddress name s =
      (match s.definitions name with
        | some node => deepCopy baseAddress node
        | .none => leafNode baseAddress name "") s := rfl

def visitNumber (number : String) : Visit PyNode := leafNode baseAddress number ""

def visitDefinition (identifier : String) (visit : Visit PyNode) : Visit PyNode := do
  let definition ← visit
  modify fun s => { s with definitions := Function.update s.definitions identifier definition }
  return definition

/-- The node made first is left without a parent. -/
def visitNumberList : NumberList → Visit PyNode
  | .single number => do
    let _ ← newNode baseAddress "number_list" ""
    leafNode baseAddress number.text ""
  | .cons number rest => do
    let _ ← newNode baseAddress "number_list" ""
    operandsFirst baseAddress "NumberList" ""
      [leafNode baseAddress number.text "", visitNumberList rest]

def visitArrayInitializer : ArrayInitializer → Visit PyNode
  | .symbolic => nodeFirst baseAddress "array_initializer" "" [leafNode baseAddress "symbolic" ""]
  | .numbers list => nodeFirst baseAddress "array_initializer" "" [visitNumberList baseAddress list]

def visitArrayDeclaration (name : String) (init : ArrayInitializer) : Visit PyNode :=
  nodeFirst baseAddress "array" name [visitArrayInitializer baseAddress init]

def visitArithmeticExpr (kind : ArithmeticKind) (type : String) (visit1 visit2 : Visit PyNode) :
    Visit PyNode :=
  operandsFirst baseAddress kind.text type [visit1, visit2]

def visitBitwiseExpr (kind : BitwiseKind) (type : Option String) (visit1 visit2 : Visit PyNode) :
    Visit PyNode :=
  operandsFirst baseAddress kind.text (type.getD "") [visit1, visit2]

def visitComparisonExpr (kind : ComparisonKind) (type : Option String)
    (visit1 visit2 : Visit PyNode) : Visit PyNode :=
  nodeFirst baseAddress kind.text (type.getD "") [visit1, visit2]

/-- With a type, an operand that is `None` stays a child without an edge. -/
def visitBvExpr (kind : BvKind) (type : Option String) (visit1 visit2 : Visit PyNode) :
    Visit PyNode :=
  match type with
  | some type => do
    let node ← newNode baseAddress kind.text type
    let children ← visitAll [visit1, visit2]
    return .node (some node) children
  | .none => nodeFirst baseAddress kind.text "" [visit1, visit2]

def visitExtensionExpr (kind : ExtensionKind) (type : String) (visit : Visit PyNode) :
    Visit PyNode :=
  operandsFirst baseAddress kind.text type [visit]

def visitReadExpr (type : String) (visit visitVersion : Visit PyNode) : Visit PyNode :=
  operandsFirst baseAddress "Read" type [visit, visitVersion]

def visitSelectExpr (type : String) (visit1 visit2 visit3 : Visit PyNode) : Visit PyNode :=
  nodeFirst baseAddress "Select" type [visit1, visit2, visit3]

/-- The node is made but not returned. -/
def visitNegExpr (type : Option String) (visit : Visit PyNode) : Visit PyNode := do
  let _ ← nodeFirst baseAddress "Neg" (type.getD "") [visit]
  return PyNode.none

def visitArrayReadExpr (kind : ArrayReadKind) (type : String) (visit visitVersion : Visit PyNode) :
    Visit PyNode :=
  operandsFirst baseAddress kind.text type [visit, visitVersion]

/-- `re.fullmatch(r'\d{1,2}', text)` -/
def isConcreteOffset (text : String) : Bool :=
  (text.toList.length == 1 || text.toList.length == 2) && text.toList.all Char.isDigit

/-- `G.nodes[node.node_id]['type'] = 'concrete_klee_offset'` -/
def markConcrete : PyNode → Visit PyNode
  | .node .none _ => failure
  | .node (some node) children =>
    return .node (some { node with type := "concrete_klee_offset" }) children

/-- The mark of an offset of one or two digits. -/
def markOffset (offsetText : String) (offset : PyNode) : Visit PyNode :=
  if isConcreteOffset offsetText then markConcrete offset else pure offset

/-- One pair of an update list. -/
def visitUpdate (offsetText : String) (visitOffset visitValue : Visit PyNode) : Visit PyNode := do
  let node ← newNode baseAddress "update_list_sub_node" ""
  let lhs ← visitOffset
  let lhs ← markOffset offsetText lhs
  let rhs ← visitValue
  let lhs ← addEdge "offset" lhs
  let rhs ← addEdge "value" rhs
  return .node (some node) [lhs, rhs]

/-- An update list, if there is one, and the text of what it updates. -/
def visitUpdated (updates : List (Visit PyNode)) (targetText : String) : Visit PyNode :=
  nodeFirst baseAddress "version" "" <|
    (if updates.isEmpty then [] else [nodeFirst baseAddress "update_list" "" updates]) ++
      [leafNode baseAddress ("\"target : " ++ targetText ++ "\"") ""]

mutual

/-- **`visitExpr`**: the visit of the alternative, and `None` for one in parentheses. -/
def visitExpr : KqueryExpr → Visit PyNode
  | .identifier name => visitIdentifier baseAddress name.text
  | .number number => visitNumber baseAddress number.text
  | .definition name e => visitDefinition name.text (visitExpr e)
  | .numberWithType _ _ => return PyNode.none
  | .arrayDeclaration name _ _ _ init => visitArrayDeclaration baseAddress name.text init
  | .arithmetic kind type e1 e2 =>
    visitArithmeticExpr baseAddress kind type (visitExpr e1) (visitExpr e2)
  | .bitwise kind type e1 e2 =>
    visitBitwiseExpr baseAddress kind type (visitExpr e1) (visitExpr e2)
  | .comparison kind type e1 e2 =>
    visitComparisonExpr baseAddress kind type (visitExpr e1) (visitExpr e2)
  | .bv kind type e1 e2 => visitBvExpr baseAddress kind type (visitExpr e1) (visitExpr e2)
  | .extension kind type e => visitExtensionExpr baseAddress kind type (visitExpr e)
  | .read type e version => visitReadExpr baseAddress type (visitExpr e) (visitVersion version)
  | .select type e1 e2 e3 =>
    visitSelectExpr baseAddress type (visitExpr e1) (visitExpr e2) (visitExpr e3)
  | .neg type e => visitNegExpr baseAddress type (visitExpr e)
  | .arrayRead kind type e version =>
    visitArrayReadExpr baseAddress kind type (visitExpr e) (visitVersion version)
  | .version updates target => visitUpdated baseAddress (visitUpdates updates) target.text

/-- **`visitVersion`** -/
def visitVersion : KqueryVersion → Visit PyNode
  | .updated updates target => visitUpdated baseAddress (visitUpdates updates) target.text
  | .name name => leafNode baseAddress name.text ""
  | .definition _ e => nodeFirst baseAddress "version" "" [visitExpr e]

/-- **`visitUpdate_list`**, pair by pair. -/
def visitUpdates : KqueryUpdates → List (Visit PyNode)
  | .nil => []
  | .cons offset value rest =>
    visitUpdate baseAddress offset.text (visitExpr offset) (visitExpr value) :: visitUpdates rest

end

/-! ## Nodes and copies -/

/-- A new node takes the next number and shows its text and its type as the two tables translate
them. -/
theorem newNode_run (value type : String) (s : GrapherState) :
    newNode baseAddress value type s =
      some (⟨s.nodeId + 1, nodeValue baseAddress value, nodeTypeValue baseAddress value type,
        nodeTypeValue baseAddress value type, ""⟩, { s with nodeId := s.nodeId + 1 }) := rfl

/-- An offset from a base address is a short number. -/
theorem fetchBaseOffset_repr {value offset : String}
    (h : fetchBaseOffset baseAddress value = some offset) :
    ∃ n : Fin 101, offset = Nat.repr n := by
  obtain ⟨address, -, haddress⟩ := List.exists_of_findSome?_eq_some h
  dsimp only at haddress
  split at haddress
  · rename_i hbounds
    obtain rfl := Option.some.inj haddress
    have hlt := (Int.toNat_lt (n := 101) hbounds.1).mpr (by omega)
    exact ⟨⟨_, hlt⟩, rfl⟩
  · cases haddress

/-- **Values settle**: what a node keeps of a value it keeps as it is from then on. -/
theorem nodeValue_settled (value : String) :
    checkKleeOffset (nodeValue baseAddress value) = false ∧
      processValue (nodeValue baseAddress value) = nodeValue baseAddress value := by
  have hrepr : ∀ n : Fin 101, checkKleeOffset (Nat.repr n) = false ∧
      processValue (Nat.repr n) = Nat.repr n := by
    decide +kernel
  unfold nodeValue
  split
  · cases hoffset : fetchBaseOffset baseAddress value with
    | none => decide +kernel
    | some offset =>
      obtain ⟨n, rfl⟩ := fetchBaseOffset_repr baseAddress hoffset
      exact hrepr n
  · rename_i hcheck
    by_cases hstart : "const_arr".toList <+: value.toList
    · rw [processValue, if_pos hstart]
      decide +kernel
    · have hvalue : processValue value = value := if_neg hstart
      rw [hvalue]
      exact ⟨by simpa using hcheck, hvalue⟩

/-- A value that a node has kept. -/
def GraphNode.Settled (node : GraphNode) : Prop :=
  checkKleeOffset node.value = false ∧ processValue node.value = node.value

/-- Translating the text of a node a second time changes nothing. This is what makes a copy of a
node show what the node shows. -/
theorem GraphNode.Settled.nodeValue_eq {node : GraphNode} (h : node.Settled) :
    nodeValue baseAddress node.value = node.value := by
  rw [nodeValue, h.1]
  exact h.2

/-- Translating its type a second time changes nothing either. -/
theorem GraphNode.Settled.nodeTypeValue_eq {node : GraphNode} (h : node.Settled) (type : String) :
    nodeTypeValue baseAddress node.value type = type := by
  rw [nodeTypeValue, h.1]
  rfl

end

end Assure
