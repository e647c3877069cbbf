import Assure.Functions.SyntaxTree
import Mathlib.Data.List.Forall2
import Mathlib.Data.List.Nodup
import Mathlib.Data.List.TakeWhile

/-!
# Declarations that define a tag

Before a file is cut into functions, a declaration that defines a structure, union or enumeration and variables of it is
made two: the definition, and the declaration of the variables. The places that the parser gives count bytes, and the
text of the declaration is cut at them as if they counted characters. So the result is right where every character in
front of the variables takes one byte, and the type is one that can be given a tag (`splitsDeclarations_iff`).

The parser is a parameter with what the code relies on: places at boundaries of characters,
specifiers inside their declarations, and the same nodes again for a text that was split. For every
such parser and every unit the result is an equivalence.
-/

namespace Assure

open Assure.Library

/-- `_TAG_SPECIFIERS` -/
def tagSpecifiers : List String := ["struct_specifier", "union_specifier", "enum_specifier"]

mutual

/-- **`_firstIdentifier`** -/
def firstIdentifier (data : List Char) : SyntaxNode → List Char
  | .node _ type startByte endByte children =>
    if type = "identifier" then decodeSlice data startByte endByte else firstIdentifierIn data children

/-- The loop of `_firstIdentifier` over the children. -/
def firstIdentifierIn (data : List Char) : List SyntaxNode → List Char
  | [] => []
  | child :: children =>
    match firstIdentifier data child with
    | [] => firstIdentifierIn data children
    | found => found

end

/-- **A declaration of variables** of a type that it defines: the declaration, the type and the first declarator. -/
structure TagDeclaration where
  node : SyntaxNode
  spec : SyntaxNode
  declarator : SyntaxNode

/-- The checks at the beginning of the loop. -/
def tagDeclaration? (node : SyntaxNode) : Option TagDeclaration :=
  if node.type ≠ "declaration" then none
  else
    match node.childByFieldName "type" with
    | none => none
    | some spec =>
      if spec.type ∉ tagSpecifiers ∨ (spec.childByFieldName "body").isNone then none
      else (node.childByFieldName "declarator").map fun declarator => ⟨node, spec, declarator⟩

/-- `"__anon_%s_%s"` -/
def anonymousTag (kind firstVariable : List Char) : List Char := "__anon_".toList ++ kind ++ '_' :: firstVariable

namespace TagDeclaration

section

variable (d : TagDeclaration) (data : List Char)

/-- `spec.type.split("_")[0]` -/
def kind : List Char := d.spec.type.toList.takeWhile (· ≠ '_')

def specText : List Char := decodeSlice data d.spec.startByte d.spec.endByte

def nameNode : Option SyntaxNode := d.spec.childByFieldName "name"

/-- The first variable, or the place of the declaration if it has none. -/
def firstVariable : List Char :=
  match firstIdentifier data d.declarator with
  | [] => (toString d.node.startByte).toList
  | found => found

def tag : List Char :=
  match d.nameNode with
  | some nameNode => decodeSlice data nameNode.startByte nameNode.endByte
  | none => anonymousTag d.kind (d.firstVariable data)

/-- What the definition of an anonymous type has behind its tag. -/
def afterTag : List Char := (d.specText data).drop d.kind.length

def definition : List Char :=
  match d.nameNode with
  | some _ => d.specText data
  | none => d.kind ++ ' ' :: d.tag data ++ d.afterTag data

def declText : List Char := decodeSlice data d.node.startByte d.node.endByte

/-- `declText[:specStart]` -/
def qualifiers : List Char := (d.declText data).take (d.spec.startByte - d.node.startByte)

/-- `declText[specEnd:]` -/
def declarators : List Char := (d.declText data).drop (d.spec.endByte - d.node.startByte)

def declaration : List Char := d.qualifiers data ++ d.kind ++ ' ' :: d.tag data ++ d.declarators data

def edit : ByteEdit :=
  ⟨d.node.startByte, d.node.endByte, d.definition data ++ ";\n".toList ++ d.declaration data⟩

end

end TagDeclaration

/-- The declarations that are split. -/
def tagDeclarations (root : SyntaxNode) : List TagDeclaration := root.children.filterMap tagDeclaration?

/-- **`splitTagDefinitionsWithDeclarators`** -/
def splitTagDefinitionsWithDeclarators (parse : List Char → SyntaxNode) (source : List Char) : List Char × Nat :=
  let edits := (tagDeclarations (parse source)).map fun d => d.edit source
  (applyEdits edits source, edits.length)

/-! ## What a split is to do -/

/-- What has declarations at file scope below it. -/
def fileScopeGroups : List String :=
  ["preproc_if", "preproc_ifdef", "preproc_elif", "preproc_elifdef", "preproc_else", "linkage_specification",
    "declaration_list"]

mutual

/-- The nodes at file scope. -/
def fileScope : SyntaxNode → List SyntaxNode
  | .node field type startByte endByte children =>
    if type ∈ fileScopeGroups then fileScopeAll children else [.node field type startByte endByte children]

/-- The nodes at file scope of some trees. -/
def fileScopeAll : List SyntaxNode → List SyntaxNode
  | [] => []
  | node :: nodes => fileScope node ++ fileScopeAll nodes

end

namespace TagDeclaration

section

variable (d : TagDeclaration) (data : List Char)

/-- What stands between the keyword and the body, without comments. -/
def attributes : List SyntaxNode :=
  ((d.spec.children.takeWhile fun child => child.field ≠ some "body").drop 1).filter fun child => child.type ≠ "comment"

/-- **Where the tag of an anonymous type is to stand**: behind the keyword and the attributes. -/
def tagPlace : Nat :=
  match d.attributes.getLast? with
  | some last => last.endByte
  | none => d.spec.startByte + d.kind.length

/-- The definition alone. -/
def rightDefinition : List Char :=
  match d.nameNode with
  | some _ => d.specText data
  | none => decodeSlice data d.spec.startByte d.tagPlace ++ ' ' :: d.tag data ++
      decodeSlice data d.tagPlace d.spec.endByte

/-- The same declaration, which names the tag. -/
def rightDeclaration : List Char :=
  decodeSlice data d.node.startByte d.spec.startByte ++ d.kind ++ ' ' :: d.tag data ++
    decodeSlice data d.spec.endByte d.node.endByte

/-- **The split of a declaration.** -/
def rightEdit : ByteEdit :=
  ⟨d.node.startByte, d.node.endByte, d.rightDefinition data ++ ";\n".toList ++ d.rightDeclaration data⟩

end

end TagDeclaration

/-- The anonymous types among the declarations that are split. -/
def anonymousDeclarations (root : SyntaxNode) : List TagDeclaration :=
  (tagDeclarations root).filter fun d => d.nameNode.isNone

/-- **The tags** that a file has. -/
def existingTags (data : List Char) (root : SyntaxNode) : List (List Char) :=
  (root.preorder.filter fun node => node.type ∈ tagSpecifiers).filterMap fun spec =>
    (spec.childByFieldName "name").map fun nameNode => decodeSlice data nameNode.startByte nameNode.endByte

/-- **The declarations are split**: exactly those at file scope, each with its qualifiers and declarators, the tag of an
anonymous type in its place; all else is copied, the new tags are new, and nothing is left to be split. -/
structure SplitsDeclarations (parse : List Char → SyntaxNode) (source : List Char) : Prop where
  exactly_fileScope : tagDeclarations (parse source) =
    (fileScopeAll (parse source).children).filterMap tagDeclaration?
  qualifiers_eq : ∀ d ∈ tagDeclarations (parse source),
    d.qualifiers source = decodeSlice source d.node.startByte d.spec.startByte
  declarators_eq : ∀ d ∈ tagDeclarations (parse source),
    d.declarators source = decodeSlice source d.spec.endByte d.node.endByte
  tag_in_place : ∀ d ∈ anonymousDeclarations (parse source),
    d.kind = decodeSlice source d.spec.startByte d.tagPlace ∧
      d.afterTag source = decodeSlice source d.tagPlace d.spec.endByte
  written : (splitTagDefinitionsWithDeclarators parse source).1 =
    writeOut source 0 ((tagDeclarations (parse source)).map fun d => d.rightEdit source)
  tags_distinct : ((anonymousDeclarations (parse source)).map fun d => d.tag source).Nodup
  tags_new : ∀ d ∈ anonymousDeclarations (parse source), d.tag source ∉ existingTags source (parse source)
  again : splitTagDefinitionsWithDeclarators parse (splitTagDefinitionsWithDeclarators parse source).1 =
    ((splitTagDefinitionsWithDeclarators parse source).1, 0)

/-- **Declarations that can be split**: none is in a conditional group, every character up to the end of a type takes
one byte, nothing stands between the keyword and the body of an anonymous type, no two of a kind have the same first
variable, and no tag of the file is the one that an anonymous type gets. -/
structure Splittable (source : List Char) (root : SyntaxNode) : Prop where
  ungrouped : ∀ node ∈ root.children, node.type ∈ fileScopeGroups →
    ∀ below ∈ fileScope node, tagDeclaration? below = none
  one_byte : ∀ d ∈ tagDeclarations root, ∀ c ∈ decodeSlice source d.node.startByte d.spec.endByte, c.utf8Size = 1
  no_attribute : ∀ d ∈ anonymousDeclarations root, d.attributes = []
  variables_distinct : ((anonymousDeclarations root).map fun d => (d.kind, d.firstVariable source)).Nodup
  tag_unused : ∀ d ∈ anonymousDeclarations root,
    anonymousTag d.kind (d.firstVariable source) ∉ existingTags source root

/-! ## The parser of C -/

/-- **Trees that differ in places only.** -/
inductive SameShape : SyntaxNode → SyntaxNode → Prop
  | node {field type startByte endByte startByte' endByte' children children'} :
    List.Forall₂ SameShape children children' →
      SameShape (.node field type startByte endByte children) (.node field type startByte' endByte' children')

/-- Nodes one after another, between characters, from a place on. -/
def NodesInOrder (data : List Char) : Nat → List SyntaxNode → Prop
  | _, [] => True
  | place, node :: nodes => place ≤ node.startByte ∧ node.startByte ≤ node.endByte ∧
    Boundary data node.startByte ∧ Boundary data node.endByte ∧ NodesInOrder data node.endByte nodes

/-- **The places in a declaration**: the type begins with its keyword, attributes take place, and the declaration goes
on behind the type. -/
structure TagDeclaration.Placed (data : List Char) (d : TagDeclaration) : Prop where
  start_le : d.node.startByte ≤ d.spec.startByte
  keyword : decodeSlice data d.spec.startByte (d.spec.startByte + d.kind.length) = d.kind
  keyword_le : d.spec.startByte + d.kind.length ≤ d.tagPlace
  attribute_lt : d.attributes ≠ [] → d.spec.startByte + d.kind.length < d.tagPlace
  tagPlace_le : d.tagPlace ≤ d.spec.endByte
  end_lt : d.spec.endByte < d.node.endByte
  start_boundary : Boundary data d.spec.startByte
  keyword_boundary : Boundary data (d.spec.startByte + d.kind.length)
  tagPlace_boundary : Boundary data d.tagPlace
  end_boundary : Boundary data d.spec.endByte

/-- What a node becomes where the declarations are split: a definition with its semicolon and a declaration whose type
has no body, or the node itself. -/
def SplitInto (node : SyntaxNode) (nodes : List SyntaxNode) : Prop :=
  match tagDeclaration? node with
  | none => nodes = [node]
  | some d => ∃ definition semicolon declaration, nodes = [definition, semicolon, declaration] ∧
      definition.type = d.spec.type ∧ semicolon.type = ";" ∧ declaration.type = "declaration" ∧
      ∀ spec, declaration.childByFieldName "type" = some spec → spec.childByFieldName "body" = none

/-- **A parser of C**, the texts that are translation units, and what it says of them: the nodes of a unit come in order,
and of a unit whose declarations are split it makes the same nodes but for those. -/
structure CParser where
  parse : List Char → SyntaxNode
  IsUnit : List Char → Prop
  inOrder : ∀ source, IsUnit source → NodesInOrder source 0 (parse source).children
  placed : ∀ source, IsUnit source → ∀ d ∈ tagDeclarations (parse source), d.Placed source
  reparse : ∀ source, IsUnit source → ∃ parts, List.Forall₂ SplitInto (parse source).children parts ∧
    List.Forall₂ SameShape
      (parse (writeOut source 0 ((tagDeclarations (parse source)).map fun d => d.rightEdit source))).children
        parts.flatten

/-! ## What is split -/

/-- **A node is split** if it is a declaration whose type has a body, with a declarator. -/
theorem tagDeclaration?_eq_some {node : SyntaxNode} {d : TagDeclaration} :
    tagDeclaration? node = some d ↔ d.node = node ∧ node.type = "declaration" ∧
      node.childByFieldName "type" = some d.spec ∧ d.spec.type ∈ tagSpecifiers ∧
      (d.spec.childByFieldName "body").isSome ∧ node.childByFieldName "declarator" = some d.declarator := by
  constructor
  · intro h
    unfold tagDeclaration? at h
    split at h
    · exact absurd h (Option.some_ne_none d).symm
    · rename_i htype
      split at h
      · exact absurd h (Option.some_ne_none d).symm
      · rename_i spec hspec
        split at h
        · exact absurd h (Option.some_ne_none d).symm
        · rename_i hbody
          obtain ⟨declarator, hdeclarator, rfl⟩ := Option.map_eq_some_iff.mp h
          rw [not_or, not_not, Bool.not_eq_true, Option.isNone_eq_false_iff] at hbody
          exact ⟨rfl, not_not.mp htype, hspec, hbody.1, hbody.2, hdeclarator⟩
  · intro h
    obtain ⟨node', spec, declarator⟩ := d
    obtain ⟨rfl, htype, hspec, hkind, hbody, hdeclarator⟩ := h
    rw [tagDeclaration?, if_neg (not_not.mpr htype), hspec]
    change (if _ then _ else _) = _
    rw [if_neg (not_or.mpr ⟨not_not.mpr hkind, by rwa [Bool.not_eq_true, Option.isNone_eq_false_iff]⟩), hdeclarator]
    rfl

/-- A group at file scope is no declaration of a tag. -/
theorem tagDeclaration?_group {node : SyntaxNode} (h : node.type ∈ fileScopeGroups) : tagDeclaration? node = none := by
  refine Option.eq_none_iff_forall_ne_some.mpr fun d hd => ?_
  rw [(tagDeclaration?_eq_some.mp hd).2.1] at h
  exact absurd h (by decide)

/-- Any other node stands for itself. -/
theorem fileScope_of_not_group {node : SyntaxNode} (h : node.type ∉ fileScopeGroups) : fileScope node = [node] := by
  cases node
  exact if_neg h

/-- At file scope there is at least what is split. -/
theorem sublist_fileScope (node : SyntaxNode) :
    ([node].filterMap tagDeclaration?).Sublist ((fileScope node).filterMap tagDeclaration?) := by
  by_cases hgroup : node.type ∈ fileScopeGroups
  · rw [List.filterMap_cons_none (tagDeclaration?_group hgroup)]
    exact List.nil_sublist _
  · rw [fileScope_of_not_group hgroup]

/-- The declarations among some nodes are among those at file scope, in their order. -/
theorem sublist_fileScopeAll (nodes : List SyntaxNode) :
    (nodes.filterMap tagDeclaration?).Sublist ((fileScopeAll nodes).filterMap tagDeclaration?) := by
  induction nodes with
  | nil => exact List.Sublist.refl _
  | cons node nodes ih =>
    rw [fileScopeAll, List.filterMap_append, ← List.singleton_append, List.filterMap_append]
    exact (sublist_fileScope node).append ih

/-- **All declarations at file scope are split** if none is in a group. -/
theorem filterMap_fileScopeAll (nodes : List SyntaxNode) :
    nodes.filterMap tagDeclaration? = (fileScopeAll nodes).filterMap tagDeclaration? ↔
      ∀ node ∈ nodes, node.type ∈ fileScopeGroups → ∀ below ∈ fileScope node, tagDeclaration? below = none := by
  induction nodes with
  | nil => simp [fileScopeAll]
  | cons node nodes ih =>
    have hhead : [node].filterMap tagDeclaration? = (fileScope node).filterMap tagDeclaration? ↔
        (node.type ∈ fileScopeGroups → ∀ below ∈ fileScope node, tagDeclaration? below = none) := by
      by_cases hgroup : node.type ∈ fileScopeGroups
      · rw [List.filterMap_cons_none (tagDeclaration?_group hgroup), List.filterMap_nil, eq_comm,
          List.filterMap_eq_nil_iff]
        exact ⟨fun h _ => h, fun h => h hgroup⟩
      · rw [fileScope_of_not_group hgroup]
        exact iff_of_true rfl fun h => absurd h hgroup
    rw [List.forall_mem_cons, ← ih, ← hhead, fileScopeAll, List.filterMap_append, ← List.singleton_append,
      List.filterMap_append]
    constructor
    · intro h
      have hnode := (sublist_fileScope node).length_le
      have hnodes := (sublist_fileScopeAll nodes).length_le
      have hlength := congrArg List.length h
      rw [List.length_append, List.length_append] at hlength
      exact List.append_inj h (by omega)
    · intro h
      rw [h.1, h.2]

/-- The anonymous declarations are those without a name. -/
theorem mem_anonymousDeclarations {root : SyntaxNode} {d : TagDeclaration} :
    d ∈ anonymousDeclarations root ↔ d ∈ tagDeclarations root ∧ d.nameNode = none := by
  rw [anonymousDeclarations, List.mem_filter, Option.isNone_iff_eq_none]

/-- What holds of a node that is split, in order with the others. -/
theorem NodesInOrder.boundaries {data : List Char} {place : Nat} {nodes : List SyntaxNode}
    (h : NodesInOrder data place nodes) : ∀ node ∈ nodes, node.startByte ≤ node.endByte ∧
      Boundary data node.startByte ∧ Boundary data node.endByte := by
  induction nodes generalizing place with
  | nil => exact List.forall_mem_nil _
  | cons node nodes ih =>
    obtain ⟨-, hle, hstart, hend, hrest⟩ := h
    exact List.forall_mem_cons.mpr ⟨⟨hle, hstart, hend⟩, ih hrest⟩

/-- **Replacements of the declarations** are edits in order. -/
theorem NodesInOrder.edits {data : List Char} {place : Nat} {nodes : List SyntaxNode}
    {edit : TagDeclaration → ByteEdit} (hstart : ∀ d, (edit d).start = d.node.startByte)
    (hstop : ∀ d, (edit d).stop = d.node.endByte) (h : NodesInOrder data place nodes) :
    EditsInOrder data place ((nodes.filterMap tagDeclaration?).map edit) := by
  induction nodes generalizing place with
  | nil => trivial
  | cons node nodes ih =>
    obtain ⟨hplace, hle, hbegin, hend, hrest⟩ := h
    cases hd : tagDeclaration? node with
    | none =>
      rw [List.filterMap_cons_none hd]
      exact (ih hrest).mono (Nat.le_trans hplace hle)
    | some d =>
      rw [List.filterMap_cons_some hd, List.map_cons, EditsInOrder, hstart, hstop, (tagDeclaration?_eq_some.mp hd).1]
      exact ⟨hplace, hle, hbegin, hend, ih hrest⟩

/-! ## Cuts and tags -/

section

variable {data : List Char} {d : TagDeclaration}

/-- **The declarators are cut right** if every character in front of them takes one byte. -/
theorem declarators_eq_iff (h : d.Placed data) (hstart : Boundary data d.node.startByte)
    (hend : Boundary data d.node.endByte) :
    d.declarators data = decodeSlice data d.spec.endByte d.node.endByte ↔
      ∀ c ∈ decodeSlice data d.node.startByte d.spec.endByte, c.utf8Size = 1 := by
  have hle : d.node.startByte ≤ d.spec.endByte := by
    have := h.start_le
    have := h.keyword_le
    have := h.tagPlace_le
    omega
  exact drop_byteSlice_iff hstart h.end_boundary hend hle h.end_lt

/-- Then the qualifiers are cut right, too. -/
theorem qualifiers_eq (h : d.Placed data) (hstart : Boundary data d.node.startByte)
    (hend : Boundary data d.node.endByte)
    (hbyte : ∀ c ∈ decodeSlice data d.node.startByte d.spec.endByte, c.utf8Size = 1) :
    d.qualifiers data = decodeSlice data d.node.startByte d.spec.startByte := by
  have := h.keyword_le
  have := h.tagPlace_le
  have := h.end_lt
  refine take_byteSlice hstart h.start_boundary hend h.start_le (by omega) fun c hc => hbyte c ?_
  rw [decodeSlice, hstart.slice_slice h.start_boundary h.end_boundary h.start_le (by omega)]
  exact List.mem_append_left _ hc

/-- A keyword has as many bytes as characters. -/
theorem byteLength_kind (h : d.Placed data) : byteLength d.kind = d.kind.length := by
  have hlength := h.start_boundary.byteLength_slice h.keyword_boundary (Nat.le_add_right _ _)
  rw [← decodeSlice, h.keyword, Nat.add_sub_cancel_left] at hlength
  exact hlength

/-- **The tag stands in its place** if there are no attributes. -/
theorem tag_in_place_iff (h : d.Placed data) :
    (d.kind = decodeSlice data d.spec.startByte d.tagPlace ∧
      d.afterTag data = decodeSlice data d.tagPlace d.spec.endByte) ↔ d.attributes = [] := by
  constructor
  · intro hplace
    refine not_ne_iff.mp fun hattributes => ?_
    have hlt := h.attribute_lt hattributes
    have hlength := h.start_boundary.byteLength_slice h.tagPlace_boundary (by omega)
    rw [← decodeSlice, ← hplace.1, byteLength_kind h] at hlength
    omega
  · intro hattributes
    have hplace : d.tagPlace = d.spec.startByte + d.kind.length := by
      rw [TagDeclaration.tagPlace, hattributes]
      rfl
    rw [hplace]
    refine ⟨h.keyword.symm, ?_⟩
    have hle := h.tagPlace_le
    rw [hplace] at hle
    have hafter := h.start_boundary.slice_slice h.keyword_boundary h.end_boundary (Nat.le_add_right _ _) hle
    rw [TagDeclaration.afterTag, TagDeclaration.specText, decodeSlice, hafter, ← decodeSlice, h.keyword, List.drop_left]
    rfl

/-- The keyword of a tag has no underscore, so in a made-up tag it ends at the first. -/
theorem underscore_notMem_kind (d : TagDeclaration) : '_' ∉ d.kind := by
  intro h
  exact absurd (List.mem_takeWhile_imp h) (by decide)

/-- An anonymous declaration gets a made-up tag. -/
theorem tag_of_anonymous (h : d.nameNode = none) : d.tag data = anonymousTag d.kind (d.firstVariable data) := by
  rw [TagDeclaration.tag, h]

/-- The kind can be read off a made-up tag. -/
theorem takeWhile_append_underscore {kind : List Char} (hkind : '_' ∉ kind) (back : List Char) :
    (kind ++ '_' :: back).takeWhile (· ≠ '_') = kind := by
  have hpos : ∀ c ∈ kind, decide (c ≠ '_') = true :=
    fun c hc => decide_eq_true (ne_of_mem_of_not_mem hc hkind)
  rw [List.takeWhile_append_of_pos hpos, List.takeWhile_cons_of_neg (by decide), List.append_nil]

/-- Tags of different variables differ. -/
theorem anonymousTag_inj {kind kind' firstVariable firstVariable' : List Char} (hkind : '_' ∉ kind)
    (hkind' : '_' ∉ kind') (h : anonymousTag kind firstVariable = anonymousTag kind' firstVariable') :
    (kind, firstVariable) = (kind', firstVariable') := by
  unfold anonymousTag at h
  generalize "__anon_".toList = front at h
  rw [List.append_assoc, List.append_assoc] at h
  have hrest := List.append_cancel_left h
  have hkinds : kind = kind' := by
    rw [← takeWhile_append_underscore hkind firstVariable, hrest, takeWhile_append_underscore hkind']
  subst hkinds
  rw [(List.cons.inj (List.append_cancel_left hrest)).2]

end

/-! ## The output read again -/

/-- Nodes of the same shape have the same type. -/
theorem SameShape.type_eq {node node' : SyntaxNode} (h : SameShape node node') : node.type = node'.type := by
  cases h
  rfl

/-- Nodes of one shape have children of one shape in a field. -/
theorem SameShape.childByFieldName {node node' : SyntaxNode} (h : SameShape node node') (name : String) :
    Option.Rel SameShape (node.childByFieldName name) (node'.childByFieldName name) := by
  obtain ⟨hchildren⟩ := h
  rename_i children children'
  change Option.Rel SameShape (children.find? _) (children'.find? _)
  induction hchildren with
  | nil => exact .none
  | @cons child child' children children' hchild _ ih =>
    have hfield : child.field = child'.field := by
      cases hchild
      rfl
    rw [List.find?_cons, List.find?_cons, hfield]
    cases hname : decide (child'.field = some name) with
    | true => exact .some hchild
    | false => exact ih

/-- **Only the shape counts** for what is split. -/
theorem SameShape.tagDeclaration?_eq_none {node node' : SyntaxNode} (h : SameShape node node')
    (hnone : tagDeclaration? node' = none) : tagDeclaration? node = none := by
  refine Option.eq_none_iff_forall_ne_some.mpr fun d hd => ?_
  obtain ⟨-, htype, hspec, hkind, hbody, hdeclarator⟩ := tagDeclaration?_eq_some.mp hd
  have hspecs := h.childByFieldName "type"
  have hdeclarators := h.childByFieldName "declarator"
  rw [hspec] at hspecs
  rw [hdeclarator] at hdeclarators
  generalize hspec' : node'.childByFieldName "type" = found at hspecs
  generalize hdeclarator' : node'.childByFieldName "declarator" = found' at hdeclarators
  obtain ⟨hshape⟩ := hspecs
  obtain ⟨hshape'⟩ := hdeclarators
  rename_i spec' declarator'
  have hbodies := hshape.childByFieldName "body"
  have hbody' : (spec'.childByFieldName "body").isSome := by
    cases hfound : spec'.childByFieldName "body" with
    | some body => rfl
    | none =>
      rw [hfound] at hbodies
      cases hbodies' : d.spec.childByFieldName "body" with
      | none =>
        rw [hbodies'] at hbody
        exact absurd hbody Bool.false_ne_true
      | some body =>
        rw [hbodies'] at hbodies
        cases hbodies
  have hsome : tagDeclaration? node' = some ⟨node', spec', declarator'⟩ :=
    tagDeclaration?_eq_some.mpr
      ⟨rfl, h.type_eq ▸ htype, hspec', hshape.type_eq ▸ hkind, hbody', hdeclarator'⟩
  rw [hsome] at hnone
  exact Option.some_ne_none _ hnone

/-- **What a declaration is split into** is not split again. -/
theorem SplitInto.tagDeclaration?_eq_none {node : SyntaxNode} {nodes : List SyntaxNode} (h : SplitInto node nodes) :
    ∀ part ∈ nodes, tagDeclaration? part = none := by
  unfold SplitInto at h
  split at h
  · rename_i hnone
    subst h
    exact List.forall_mem_singleton.mpr hnone
  · rename_i d hd
    obtain ⟨definition, semicolon, declaration, rfl, hdefinition, hsemicolon, -, hbody⟩ := h
    have hkind := (tagDeclaration?_eq_some.mp hd).2.2.2.1
    refine List.forall_mem_cons.mpr ⟨?_, List.forall_mem_cons.mpr ⟨?_, List.forall_mem_singleton.mpr ?_⟩⟩
    · refine Option.eq_none_iff_forall_ne_some.mpr fun e he => ?_
      rw [← hdefinition, (tagDeclaration?_eq_some.mp he).2.1] at hkind
      exact absurd hkind (by decide)
    · refine Option.eq_none_iff_forall_ne_some.mpr fun e he => ?_
      rw [(tagDeclaration?_eq_some.mp he).2.1] at hsemicolon
      exact absurd hsemicolon (by decide)
    · refine Option.eq_none_iff_forall_ne_some.mpr fun e he => ?_
      obtain ⟨-, -, hspec, -, hsome, -⟩ := tagDeclaration?_eq_some.mp he
      rw [hbody e.spec hspec] at hsome
      exact absurd hsome Bool.false_ne_true

/-- What split nodes are split into declares no tag together with variables. -/
theorem forall_mem_flatten_parts {nodes : List SyntaxNode} {parts : List (List SyntaxNode)}
    (h : List.Forall₂ SplitInto nodes parts) : ∀ part ∈ parts.flatten, tagDeclaration? part = none := by
  induction h with
  | nil => exact List.forall_mem_nil _
  | cons hsplit _ ih =>
    rw [List.flatten_cons]
    exact List.forall_mem_append.mpr ⟨hsplit.tagDeclaration?_eq_none, ih⟩

/-- Nodes of the shape of others that declare no tag declare none. -/
theorem filterMap_sameShape {nodes nodes' : List SyntaxNode} (h : List.Forall₂ SameShape nodes nodes')
    (hnone : ∀ node ∈ nodes', tagDeclaration? node = none) : nodes.filterMap tagDeclaration? = [] := by
  induction h with
  | nil => rfl
  | cons hshape _ ih =>
    obtain ⟨hhead, htail⟩ := List.forall_mem_cons.mp hnone
    rw [List.filterMap_cons_none (hshape.tagDeclaration?_eq_none hhead)]
    exact ih htail

/-- **Nothing is left to be split** where the declarations have been split. -/
theorem CParser.tagDeclarations_reparse (parser : CParser) {source : List Char} (h : parser.IsUnit source) :
    tagDeclarations (parser.parse
      (writeOut source 0 ((tagDeclarations (parser.parse source)).map fun d => d.rightEdit source))) = [] := by
  obtain ⟨parts, hparts, hshape⟩ := parser.reparse source h
  exact filterMap_sameShape hshape (forall_mem_flatten_parts hparts)

/-! ## Declarations are split -/

section

variable (parser : CParser) {source : List Char}

/-- What the tree of a unit says of a declaration. -/
theorem CParser.boundaries (h : parser.IsUnit source) {d : TagDeclaration}
    (hd : d ∈ tagDeclarations (parser.parse source)) :
    Boundary source d.node.startByte ∧ Boundary source d.node.endByte := by
  obtain ⟨node, hnode, hsome⟩ := List.mem_filterMap.mp hd
  obtain rfl := (tagDeclaration?_eq_some.mp hsome).1
  exact ((parser.inOrder source h).boundaries _ hnode).2

/-- **The tags are distinct** if the variables are. -/
theorem nodup_tags_iff (source : List Char) (root : SyntaxNode) :
    ((anonymousDeclarations root).map fun d => d.tag source).Nodup ↔
      ((anonymousDeclarations root).map fun d => (d.kind, d.firstVariable source)).Nodup := by
  have htags : ((anonymousDeclarations root).map fun d => d.tag source) =
      ((anonymousDeclarations root).map fun d => (d.kind, d.firstVariable source)).map
        fun named => anonymousTag named.1 named.2 := by
    rw [List.map_map]
    exact List.map_congr_left fun d hd => tag_of_anonymous (mem_anonymousDeclarations.mp hd).2
  rw [htags]
  refine ⟨List.Nodup.of_map _, List.Nodup.map_on fun named hnamed named' hnamed' heq => ?_⟩
  obtain ⟨d, -, rfl⟩ := List.mem_map.mp hnamed
  obtain ⟨d', -, rfl⟩ := List.mem_map.mp hnamed'
  exact anonymousTag_inj (underscore_notMem_kind d) (underscore_notMem_kind d') heq

/-- **The output is the text written out** with the declarations split. -/
theorem CParser.split_fst (h : parser.IsUnit source)
    (hedit : ∀ d ∈ tagDeclarations (parser.parse source), d.edit source = d.rightEdit source) :
    (splitTagDefinitionsWithDeclarators parser.parse source).1 =
      writeOut source 0 ((tagDeclarations (parser.parse source)).map fun d => d.rightEdit source) := by
  have hedits : ((tagDeclarations (parser.parse source)).map fun d => d.edit source) =
      (tagDeclarations (parser.parse source)).map fun d => d.rightEdit source :=
    List.map_congr_left hedit
  have horder : EditsInOrder source 0 ((tagDeclarations (parser.parse source)).map fun d => d.rightEdit source) :=
    (parser.inOrder source h).edits (fun _ => rfl) fun _ => rfl
  change applyEdits ((tagDeclarations (parser.parse source)).map fun d => d.edit source) source = _
  rw [hedits, applyEdits_eq (.zero source) horder, byteTake_zero, List.nil_append]

/-- The edit of a declaration whose parts are cut right. -/
theorem edit_eq_rightEdit {data : List Char} {d : TagDeclaration}
    (hqualifiers : d.qualifiers data = decodeSlice data d.node.startByte d.spec.startByte)
    (hdeclarators : d.declarators data = decodeSlice data d.spec.endByte d.node.endByte)
    (hplace : d.nameNode = none → d.kind = decodeSlice data d.spec.startByte d.tagPlace ∧
      d.afterTag data = decodeSlice data d.tagPlace d.spec.endByte) : d.edit data = d.rightEdit data := by
  have hdefinition : d.definition data = d.rightDefinition data := by
    cases hname : d.nameNode with
    | some nameNode => rw [TagDeclaration.definition, TagDeclaration.rightDefinition, hname]
    | none =>
      obtain ⟨hkind, hafter⟩ := hplace hname
      rw [TagDeclaration.definition, TagDeclaration.rightDefinition, hname]
      dsimp only
      rw [← hkind, hafter]
  rw [TagDeclaration.edit, TagDeclaration.rightEdit, hdefinition, TagDeclaration.declaration,
    TagDeclaration.rightDeclaration, hqualifiers, hdeclarators]

/-- **The declarations of a unit are split** as they should be exactly if they can be: none is in a conditional group,
every character up to the end of a type takes one byte, and the new tags are free. The parser is any of the kind that
the code relies on. -/
theorem splitsDeclarations_iff (h : parser.IsUnit source) :
    SplitsDeclarations parser.parse source ↔ Splittable source (parser.parse source) := by
  constructor
  · intro hsplits
    refine ⟨(filterMap_fileScopeAll _).mp hsplits.exactly_fileScope, fun d hd => ?_, fun d hd => ?_,
      (nodup_tags_iff source _).mp hsplits.tags_distinct, fun d hd => ?_⟩
    · obtain ⟨hstart, hend⟩ := parser.boundaries h hd
      exact (declarators_eq_iff (parser.placed source h d hd) hstart hend).mp (hsplits.declarators_eq d hd)
    · have hplaced := parser.placed source h d (mem_anonymousDeclarations.mp hd).1
      exact (tag_in_place_iff hplaced).mp (hsplits.tag_in_place d hd)
    · have hnew := hsplits.tags_new d hd
      rwa [tag_of_anonymous (mem_anonymousDeclarations.mp hd).2] at hnew
  · intro hsplittable
    have hdeclarators : ∀ d ∈ tagDeclarations (parser.parse source),
        d.declarators source = decodeSlice source d.spec.endByte d.node.endByte := by
      intro d hd
      obtain ⟨hstart, hend⟩ := parser.boundaries h hd
      exact (declarators_eq_iff (parser.placed source h d hd) hstart hend).mpr (hsplittable.one_byte d hd)
    have hqualifiers : ∀ d ∈ tagDeclarations (parser.parse source),
        d.qualifiers source = decodeSlice source d.node.startByte d.spec.startByte := by
      intro d hd
      obtain ⟨hstart, hend⟩ := parser.boundaries h hd
      exact qualifiers_eq (parser.placed source h d hd) hstart hend (hsplittable.one_byte d hd)
    have hplace : ∀ d ∈ anonymousDeclarations (parser.parse source),
        d.kind = decodeSlice source d.spec.startByte d.tagPlace ∧
          d.afterTag source = decodeSlice source d.tagPlace d.spec.endByte := by
      intro d hd
      have hplaced := parser.placed source h d (mem_anonymousDeclarations.mp hd).1
      exact (tag_in_place_iff hplaced).mpr (hsplittable.no_attribute d hd)
    have hwritten := parser.split_fst h fun d hd => edit_eq_rightEdit (hqualifiers d hd) (hdeclarators d hd)
      fun hname => hplace d (mem_anonymousDeclarations.mpr ⟨hd, hname⟩)
    refine ⟨(filterMap_fileScopeAll _).mpr hsplittable.ungrouped, hqualifiers, hdeclarators, hplace, hwritten,
      (nodup_tags_iff source _).mpr hsplittable.variables_distinct, fun d hd => ?_, ?_⟩
    · rw [tag_of_anonymous (mem_anonymousDeclarations.mp hd).2]
      exact hsplittable.tag_unused d hd
    · rw [hwritten, splitTagDefinitionsWithDeclarators, parser.tagDeclarations_reparse h]
      rfl

end

/-! ## Two units -/

mutual

/-- Every node has its own shape. -/
theorem SameShape.refl : ∀ node : SyntaxNode, SameShape node node
  | SyntaxNode.node _ _ _ _ children => .node (SameShape.refl_all children)

/-- So have the nodes of a list. -/
theorem SameShape.refl_all : ∀ nodes : List SyntaxNode, List.Forall₂ SameShape nodes nodes
  | [] => .nil
  | first :: rest => .cons (SameShape.refl first) (SameShape.refl_all rest)

end

/-- The tree of `{ int a; }` with what comes before its end. -/
def sampleBody (start stop : Nat) (comments : List SyntaxNode) : SyntaxNode :=
  .node (some "body") "field_declaration_list" start stop
    ([.node none "\x7b" start (start + 1) [],
      .node none "field_declaration" (start + 2) (start + 8)
        [.node (some "type") "primitive_type" (start + 2) (start + 5) [],
          .node (some "declarator") "field_identifier" (start + 6) (start + 7) [],
          .node none ";" (start + 7) (start + 8) []]] ++ comments ++ [.node none "\x7d" (stop - 1) stop []])

/-- The tree of a declaration of `x` whose type ends at a place. -/
def sampleDeclaration (start stop : Nat) (spec : List SyntaxNode) : SyntaxNode :=
  .node none "declaration" start (stop + 3)
    [.node (some "type") "struct_specifier" start stop (.node none "struct" start (start + 6) [] :: spec),
      .node (some "declarator") "identifier" (stop + 1) (stop + 2) [], .node none ";" (stop + 2) (stop + 3) []]

/-- `struct { int a; } x;` -/
def anonymousSample : List Char := "struct { int a; } x;".toList

def anonymousSplit : List Char := "struct __anon_struct_x { int a; };\nstruct __anon_struct_x x;".toList

def anonymousTree : SyntaxNode := .node none "translation_unit" 0 20 [sampleDeclaration 0 17 [sampleBody 7 17 []]]

def anonymousSplitTree : SyntaxNode :=
  .node none "translation_unit" 0 60
    [.node none "struct_specifier" 0 33
      [.node none "struct" 0 6 [], .node (some "name") "type_identifier" 7 22 [], sampleBody 23 33 []],
      .node none ";" 33 34 [],
      sampleDeclaration 35 57 [.node (some "name") "type_identifier" 42 57 []]]

/-- `struct S { int a; /* é */ } x;` -/
def commentSample : List Char := "struct S { int a; /* é */ } x;".toList

def commentSplit : List Char := "struct S { int a; /* é */ };\nstruct S x;".toList

def commentTree : SyntaxNode :=
  .node none "translation_unit" 0 31
    [sampleDeclaration 0 28
      [.node (some "name") "type_identifier" 7 8 [], sampleBody 9 28 [.node none "comment" 18 26 []]]]

def commentSplitTree : SyntaxNode :=
  .node none "translation_unit" 0 41
    [.node none "struct_specifier" 0 28
      [.node none "struct" 0 6 [], .node (some "name") "type_identifier" 7 8 [],
        sampleBody 9 28 [.node none "comment" 18 26 []]],
      .node none ";" 28 29 [],
      sampleDeclaration 30 38 [.node (some "name") "type_identifier" 37 38 []]]

/-- The parser on these texts. -/
def sampleParse (source : List Char) : SyntaxNode :=
  if source = anonymousSample then anonymousTree
  else if source = anonymousSplit then anonymousSplitTree
  else if source = commentSample then commentTree
  else commentSplitTree

instance decidableNodesInOrder (data : List Char) : ∀ (place : Nat) (nodes : List SyntaxNode),
    Decidable (NodesInOrder data place nodes)
  | _, [] => .isTrue trivial
  | place, node :: nodes =>
    have := decidableNodesInOrder data node.endByte nodes
    inferInstanceAs (Decidable (place ≤ node.startByte ∧ node.startByte ≤ node.endByte ∧
      Boundary data node.startByte ∧ Boundary data node.endByte ∧ NodesInOrder data node.endByte nodes))

instance (data : List Char) (d : TagDeclaration) : Decidable (d.Placed data) :=
  decidable_of_iff
    ((d.node.startByte ≤ d.spec.startByte ∧
      decodeSlice data d.spec.startByte (d.spec.startByte + d.kind.length) = d.kind ∧
      d.spec.startByte + d.kind.length ≤ d.tagPlace ∧
      (d.attributes.isEmpty ∨ d.spec.startByte + d.kind.length < d.tagPlace) ∧ d.tagPlace ≤ d.spec.endByte ∧
      d.spec.endByte < d.node.endByte) ∧
      Boundary data d.spec.startByte ∧ Boundary data (d.spec.startByte + d.kind.length) ∧
      Boundary data d.tagPlace ∧ Boundary data d.spec.endByte)
    ⟨fun ⟨⟨h1, h2, h3, h4, h5, h6⟩, h7, h8, h9, h10⟩ =>
        ⟨h1, h2, h3, fun h => h4.resolve_left fun he => h (List.isEmpty_iff.mp he), h5, h6, h7, h8, h9, h10⟩,
      fun ⟨h1, h2, h3, h4, h5, h6, h7, h8, h9, h10⟩ =>
        ⟨⟨h1, h2, h3, (Decidable.em _).imp_right fun he => h4 (mt List.isEmpty_iff.mpr he), h5, h6⟩, h7, h8, h9, h10⟩⟩

/-- What the parser of the example makes of the declaration with a comment. -/
theorem sampleParse_comment : sampleParse commentSample = commentTree :=
  (if_neg (by decide)).trans ((if_neg (by decide)).trans (if_pos rfl))

/-- What it makes of the split anonymous declaration. -/
theorem sampleParse_anonymousSplit : sampleParse anonymousSplit = anonymousSplitTree :=
  (if_neg (by decide)).trans (if_pos rfl)

/-- What it makes of the split declaration with a comment. -/
theorem sampleParse_commentSplit : sampleParse commentSplit = commentSplitTree :=
  (if_neg (by decide)).trans ((if_neg (by decide)).trans (if_neg (by decide)))

/-- **The parser of the samples.** -/
def sampleParser : CParser where
  parse := sampleParse
  IsUnit source := source = anonymousSample ∨ source = commentSample
  inOrder := by
    rintro source (rfl | rfl)
    · rw [show sampleParse anonymousSample = anonymousTree from if_pos rfl]
      decide
    · rw [sampleParse_comment]
      decide
  placed := by
    rintro source (rfl | rfl)
    · rw [show sampleParse anonymousSample = anonymousTree from if_pos rfl]
      decide
    · rw [sampleParse_comment]
      decide
  reparse := by
    rintro source (rfl | rfl)
    · rw [show sampleParse anonymousSample = anonymousTree from if_pos rfl,
        show writeOut anonymousSample 0 ((tagDeclarations anonymousTree).map fun d => d.rightEdit anonymousSample) =
          anonymousSplit by decide, sampleParse_anonymousSplit]
      exact ⟨[anonymousSplitTree.children], .cons ⟨_, _, _, rfl, rfl, rfl, rfl, fun spec hspec => by
        obtain rfl := Option.some.inj hspec
        rfl⟩ .nil, SameShape.refl_all _⟩
    · rw [sampleParse_comment,
        show writeOut commentSample 0 ((tagDeclarations commentTree).map fun d => d.rightEdit commentSample) =
          commentSplit by decide, sampleParse_commentSplit]
      exact ⟨[commentSplitTree.children], .cons ⟨_, _, _, rfl, rfl, rfl, rfl, fun spec hspec => by
        obtain rfl := Option.some.inj hspec
        rfl⟩ .nil, SameShape.refl_all _⟩

/-- An anonymous type is split off. -/
theorem splitsDeclarations_sample :
    sampleParser.IsUnit anonymousSample ∧ (SplitsDeclarations sampleParse anonymousSample ↔
      Splittable anonymousSample (sampleParse anonymousSample)) :=
  ⟨.inl rfl, splitsDeclarations_iff sampleParser (.inl rfl)⟩

/-- **A comment with a letter of two bytes** cuts the declarators one character too late. -/
theorem splitsDeclarations_not :
    ¬ ∀ (parser : CParser) (source : List Char), parser.IsUnit source → SplitsDeclarations parser.parse source := by
  intro h
  have hwritten := (h sampleParser commentSample (.inr rfl)).written
  have houtput : (splitTagDefinitionsWithDeclarators sampleParse commentSample).1 =
      "struct S { int a; /* é */ };\nstruct Sx;".toList := by
    rw [splitTagDefinitionsWithDeclarators, sampleParse_comment]
    decide
  change (splitTagDefinitionsWithDeclarators sampleParse commentSample).1 =
    writeOut commentSample 0 ((tagDeclarations (sampleParse commentSample)).map fun d => d.rightEdit commentSample)
    at hwritten
  rw [houtput, sampleParse_comment] at hwritten
  exact absurd hwritten (by decide)

end Assure
