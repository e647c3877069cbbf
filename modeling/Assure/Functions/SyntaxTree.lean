import Assure.Library.ByteText

/-!
# Syntax trees

What the scripts read of a tree-sitter tree: the type of a node, the part of the source it spans, its children and the
fields they are in. Places in the source count bytes.
-/

namespace Assure

/-- **A node of a syntax tree**: the field of its parent that it is in, its type, where it starts and ends, and its
children. -/
inductive SyntaxNode
  | node (field : Option String) (type : String) (startByte endByte : Nat) (children : List SyntaxNode)

namespace SyntaxNode

def field : SyntaxNode → Option String
  | .node field _ _ _ _ => field

def type : SyntaxNode → String
  | .node _ type _ _ _ => type

def startByte : SyntaxNode → Nat
  | .node _ _ startByte _ _ => startByte

def endByte : SyntaxNode → Nat
  | .node _ _ _ endByte _ => endByte

def children : SyntaxNode → List SyntaxNode
  | .node _ _ _ _ children => children

end SyntaxNode

open Assure.Library

/-- `src_bytes[start:stop].decode()`, for places between two characters. -/
def decodeSlice (src : List Char) (start stop : Nat) : List Char := byteSlice start stop src

namespace SyntaxNode

/-- The text of a node. -/
def text (src : List Char) (node : SyntaxNode) : String := String.ofList (decodeSlice src node.startByte node.endByte)

/-- `node.child_by_field_name(name)` -/
def childByFieldName (node : SyntaxNode) (name : String) : Option SyntaxNode :=
  node.children.find? fun child => child.field = some name

mutual

/-- A node and all nodes below it, as a walk with a stack of reversed children comes to them. -/
def preorder : SyntaxNode → List SyntaxNode
  | .node field type startByte endByte children => .node field type startByte endByte children :: preorderAll children

/-- The nodes of some trees. -/
def preorderAll : List SyntaxNode → List SyntaxNode
  | [] => []
  | child :: children => child.preorder ++ preorderAll children

end

mutual

/-- **`find_identifier`** -/
def findIdentifier : SyntaxNode → Option SyntaxNode
  | .node field type startByte endByte children =>
    if type = "identifier" then some (.node field type startByte endByte children) else findIdentifierIn children

/-- The loop of `find_identifier` over the children. -/
def findIdentifierIn : List SyntaxNode → Option SyntaxNode
  | [] => none
  | child :: children =>
    match child.findIdentifier with
    | some found => some found
    | none => findIdentifierIn children

end

/-! ## Nodes below a node -/

/-- The children of a node are smaller than the node, which is why the recursions over a tree end.
-/
theorem sizeOf_children (node : SyntaxNode) : sizeOf node.children < sizeOf node := by
  obtain ⟨field, type, startByte, endByte, below⟩ := node
  rw [SyntaxNode.node.sizeOf_spec]
  change sizeOf below < _
  omega

/-- So is a child that is found by the name of its field. -/
theorem sizeOf_childByFieldName {node child : SyntaxNode} {name : String}
    (h : node.childByFieldName name = some child) : sizeOf child < sizeOf node :=
  Nat.lt_trans (List.sizeOf_lt_of_mem (List.mem_of_find?_eq_some h)) (sizeOf_children node)

mutual

/-- What a walk comes to is the node it starts from or smaller. -/
theorem sizeOf_of_mem_preorder {below : SyntaxNode} : ∀ {node : SyntaxNode}, below ∈ node.preorder →
    below = node ∨ sizeOf below < sizeOf node
  | .node field type startByte endByte children, h => by
    rw [preorder] at h
    rcases List.mem_cons.mp h with rfl | h
    · exact .inl rfl
    · exact .inr (Nat.lt_trans (sizeOf_of_mem_preorderAll h)
        (sizeOf_children (.node field type startByte endByte children)))

/-- So is every node below some trees. -/
theorem sizeOf_of_mem_preorderAll {below : SyntaxNode} : ∀ {nodes : List SyntaxNode}, below ∈ preorderAll nodes →
    sizeOf below < sizeOf nodes
  | [], h => absurd h List.not_mem_nil
  | child :: children, h => by
    rw [preorderAll] at h
    rw [List.cons.sizeOf_spec]
    rcases List.mem_append.mp h with h | h
    · rcases sizeOf_of_mem_preorder h with rfl | hlt <;> omega
    · have := sizeOf_of_mem_preorderAll h
      omega

end

end SyntaxNode

/-! ## Names of C++ functions -/

/-- What counts as something in Python. -/
def nonEmpty (text : Option String) : Option String := text.filter (· ≠ "")

/-- The last identifier of a tree. -/
def lastIdentifier (node : SyntaxNode) : Option SyntaxNode :=
  (node.preorder.filter fun cur => cur.type = "identifier").getLast?

/-- **`extract_cpp_callable_name`** -/
def extractCppCallableName (src : List Char) (declNode : SyntaxNode) : Option String :=
  match nonEmpty ((declNode.childByFieldName "name").attach.bind fun f => extractCppCallableName src f.1) with
  | some got => some got
  | none =>
  match nonEmpty ((declNode.childByFieldName "declarator").attach.bind fun f => extractCppCallableName src f.1) with
  | some got => some got
  | none =>
  if declNode.type = "identifier" then some (declNode.text src)
  else if _hqualified : declNode.type ∈ ["qualified_identifier", "scoped_identifier"] then
    some (((lastIdentifier declNode).getD declNode).text src)
  else if _htemplate : declNode.type = "template_function" then
    match _hfound : declNode.preorder.find? fun cur =>
        cur.type ∈ ["identifier", "qualified_identifier", "scoped_identifier"] with
    | some cur => extractCppCallableName src cur
    | none => some (declNode.text src)
  else if declNode.type ∈ ["operator_name", "destructor_name", "conversion_function_id"] then some (declNode.text src)
  else
    match declNode.preorder.attach.findSome? fun cur =>
        if _hcur : cur.1.type ∈ ["qualified_identifier", "scoped_identifier", "template_function"] then
          nonEmpty (extractCppCallableName src cur.1)
        else none with
    | some cand => some cand
    | none => (lastIdentifier declNode).map (SyntaxNode.text src)
termination_by sizeOf declNode
decreasing_by
  · exact SyntaxNode.sizeOf_childByFieldName f.2
  · exact SyntaxNode.sizeOf_childByFieldName f.2
  · refine (SyntaxNode.sizeOf_of_mem_preorder (List.mem_of_find?_eq_some _hfound)).resolve_left fun heq => ?_
    have htype := List.find?_some _hfound
    rw [heq, _htemplate] at htype
    exact absurd htype (by decide)
  · refine (SyntaxNode.sizeOf_of_mem_preorder cur.2).resolve_left fun heq => ?_
    rw [heq] at _hcur
    simp only [List.mem_cons, List.not_mem_nil, or_false] at _hcur _hqualified
    tauto

end Assure
