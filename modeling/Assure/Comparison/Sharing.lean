import Assure.Comparison.DrawnTree

/-!
# Shared definitions

The visitor keeps the node of a definition and draws its uses as copies. A visit is compared with the tree of the inlined
expression (`Compares`): where it does not raise, what it returns is that tree exactly if some `P` holds, and a copy of it
would be the same if there is no update in the tree. The comparison goes along the grammar, with what the visitor has kept
of each name (`Kept`) as invariant, and a copy is compared in `Result.copy`.

What `P` is of an expression is said in `Assure.Comparison.Shareable`. Nothing is said here of visits that raise.
-/

namespace Assure

open Assure.Library

/-! ## Scopes -/

mutual

/-- Only defined names change what they stand for. -/
theorem inline_scope (seen : Bool) (name : String) : ∀ (e : KqueryExpr) (scope : Scope),
    name ∉ e.definedNames → (e.inline seen scope).2 name = scope name
  | .identifier _, _, _ | .number _, _, _ | .numberWithType .., _, _
  | .arrayDeclaration .., _, _ => by rw [KqueryExpr.inline]
  | .definition other e, scope, h => by
    rw [KqueryExpr.definedNames, List.mem_cons, not_or] at h
    rw [KqueryExpr.inline]
    exact (Function.update_of_ne h.1 _ _).trans (inline_scope seen name e scope h.2)
  | .extension _ _ e, scope, h | .neg _ e, scope, h => by
    rw [KqueryExpr.definedNames] at h
    rw [KqueryExpr.inline]
    exact inline_scope seen name e scope h
  | .arithmetic _ _ e1 e2, scope, h | .bitwise _ _ e1 e2, scope, h
  | .comparison _ _ e1 e2, scope, h | .bv _ _ e1 e2, scope, h => by
    rw [KqueryExpr.definedNames, List.mem_append, not_or] at h
    rw [KqueryExpr.inline]
    exact (inline_scope seen name e2 _ h.2).trans (inline_scope seen name e1 scope h.1)
  | .read _ e version, scope, h | .arrayRead _ _ e version, scope, h => by
    rw [KqueryExpr.definedNames, List.mem_append, not_or] at h
    rw [KqueryExpr.inline]
    exact (version_inline_scope seen name version _ h.2).trans (inline_scope seen name e scope h.1)
  | .select _ e1 e2 e3, scope, h => by
    rw [KqueryExpr.definedNames, List.mem_append, List.mem_append, not_or, not_or] at h
    rw [KqueryExpr.inline]
    exact (inline_scope seen name e3 _ h.2.2).trans
      ((inline_scope seen name e2 _ h.2.1).trans (inline_scope seen name e1 scope h.1))
  | .version updates target, scope, h => by
    rw [KqueryExpr.definedNames, List.mem_append, not_or] at h
    rw [KqueryExpr.inline]
    exact (version_inline_scope false name target _ h.2).trans
      (updates_inline_scope seen name updates scope h.1)

/-- Putting names into a version changes the meaning of no name that it does not define. -/
theorem version_inline_scope (seen : Bool) (name : String) :
    ∀ (version : KqueryVersion) (scope : Scope),
      name ∉ version.definedNames → (version.inline seen scope).2 name = scope name
  | .updated updates target, scope, h => by
    rw [KqueryVersion.definedNames, List.mem_append, not_or] at h
    rw [KqueryVersion.inline]
    exact (version_inline_scope false name target _ h.2).trans
      (updates_inline_scope seen name updates scope h.1)
  | .name _, _, _ => by rw [KqueryVersion.inline]
  | .definition other e, scope, h => by
    rw [KqueryVersion.definedNames, List.mem_cons, not_or] at h
    have he := inline_scope seen name e scope h.2
    rw [KqueryVersion.inline]
    split
    · exact (Function.update_of_ne h.1 _ _).trans he
    · exact he

/-- The same for a list of updates. -/
theorem updates_inline_scope (seen : Bool) (name : String) :
    ∀ (updates : KqueryUpdates) (scope : Scope),
      name ∉ updates.definedNames → (updates.inline seen scope).2 name = scope name
  | .nil, _, _ => by rw [KqueryUpdates.inline]
  | .cons offset value rest, scope, h => by
    rw [KqueryUpdates.definedNames, List.mem_append, List.mem_append, not_or, not_or] at h
    rw [KqueryUpdates.inline]
    exact (updates_inline_scope seen name rest _ h.2.2).trans
      ((inline_scope seen name value _ h.2.1).trans (inline_scope seen name offset scope h.1))

end

/-- A scope where some names may stand for something else, which the visitor has not seen. -/
def Scope.HidesIn (scope next : Scope) : Prop :=
  ∀ name, next name = scope name ∨ ∃ body, next name = some ⟨body, false⟩

/-- Every name that is hidden stays hidden where nothing happens. -/
theorem Scope.HidesIn.refl (scope : Scope) : scope.HidesIn scope := fun _ => .inl rfl

/-- Hiding is kept over two steps. -/
theorem Scope.HidesIn.trans {scope next last : Scope} (h : scope.HidesIn next)
    (hlast : next.HidesIn last) : scope.HidesIn last := by
  intro name
  rcases hlast name with heq | hbody
  · rw [heq]
    exact h name
  · exact .inr hbody

/-- A definition made under an operator that is not drawn hides its name, so adding it keeps what is
hidden. -/
theorem Scope.HidesIn.update {scope next : Scope} (h : scope.HidesIn next) (name : String)
    (body : KqueryExpr) : scope.HidesIn (Function.update next name (some ⟨body, false⟩)) := by
  refine h.trans fun other => ?_
  by_cases hother : other = name
  · subst hother
    rw [Function.update_self]
    exact .inr ⟨body, rfl⟩
  · rw [Function.update_of_ne hother]
    exact .inl rfl

mutual

/-- Under such an operator, putting names in hides the names that are defined there and shows none.
-/
theorem inline_hides : ∀ (e : KqueryExpr) (scope : Scope), scope.HidesIn (e.inline false scope).2
  | .identifier _, scope | .number _, scope | .numberWithType .., scope
  | .arrayDeclaration .., scope => by
    rw [KqueryExpr.inline]
    exact .refl scope
  | .definition name e, scope => by
    rw [KqueryExpr.inline]
    exact (inline_hides e scope).update name.text _
  | .extension _ _ e, scope | .neg _ e, scope => by
    rw [KqueryExpr.inline]
    exact inline_hides e scope
  | .arithmetic _ _ e1 e2, scope | .bitwise _ _ e1 e2, scope | .comparison _ _ e1 e2, scope
  | .bv _ _ e1 e2, scope => by
    rw [KqueryExpr.inline]
    exact (inline_hides e1 scope).trans (inline_hides e2 _)
  | .read _ e version, scope | .arrayRead _ _ e version, scope => by
    rw [KqueryExpr.inline]
    exact (inline_hides e scope).trans (version_inline_hides version _)
  | .select _ e1 e2 e3, scope => by
    rw [KqueryExpr.inline]
    exact (inline_hides e1 scope).trans ((inline_hides e2 _).trans (inline_hides e3 _))
  | .version updates target, scope => by
    rw [KqueryExpr.inline]
    exact (updates_inline_hides updates scope).trans (version_inline_hides target _)

/-- The same for a version of an array. -/
theorem version_inline_hides : ∀ (version : KqueryVersion) (scope : Scope),
    scope.HidesIn (version.inline false scope).2
  | .updated updates target, scope => by
    rw [KqueryVersion.inline]
    exact (updates_inline_hides updates scope).trans (version_inline_hides target _)
  | .name _, scope => by
    rw [KqueryVersion.inline]
    exact .refl scope
  | .definition name e, scope => by
    rw [KqueryVersion.inline]
    split
    · exact (inline_hides e scope).update name.text _
    · exact inline_hides e scope

/-- The same for a list of updates. -/
theorem updates_inline_hides : ∀ (updates : KqueryUpdates) (scope : Scope),
    scope.HidesIn (updates.inline false scope).2
  | .nil, scope => by
    rw [KqueryUpdates.inline]
    exact .refl scope
  | .cons offset value rest, scope => by
    rw [KqueryUpdates.inline]
    exact (inline_hides offset scope).trans
      ((inline_hides value _).trans (updates_inline_hides rest _))

end

/-- Different names that are not yet defined. -/
structure Scope.Fresh (scope : Scope) (names : List String) : Prop where
  nodup : names.Nodup
  free : ∀ name ∈ names, scope name = none

/-- Names that are all new are new when some of them are left out. -/
theorem Scope.Fresh.left {scope : Scope} {names others : List String}
    (h : scope.Fresh (names ++ others)) : scope.Fresh names where
  nodup := (List.nodup_append.mp h.nodup).1
  free name hname := h.free name (List.mem_append_left others hname)

/-- Names that come later stay free. -/
theorem Scope.Fresh.right {scope next : Scope} {names others : List String}
    (h : scope.Fresh (names ++ others)) (hnext : ∀ name, name ∉ names → next name = scope name) :
    next.Fresh others where
  nodup := (List.nodup_append.mp h.nodup).2.1
  free name hname := by
    rw [hnext name fun hmem => (List.nodup_append.mp h.nodup).2.2 name hmem name hname rfl]
    exact h.free name (List.mem_append_right names hname)

/-- They are new without the first of them. -/
theorem Scope.Fresh.tail {scope : Scope} {name : String} {names : List String}
    (h : scope.Fresh (name :: names)) : scope.Fresh names := by
  have happend : scope.Fresh ([name] ++ names) := h
  exact happend.right fun _ _ => rfl

/-! ## A returned tree and a drawn one -/

/-- What is drawn of a returned tree. -/
def PyNode.seen (t : PyNode) : RoseTree (Option (String × String × String)) := t.map (Option.map GraphNode.drawn)

/-- What is seen of a drawn tree. -/
def Drawn.seen (tree : Drawn) : RoseTree (Option (String × String × String)) := tree.map (Option.map visible)

/-- The fields of a returned tree. -/
def PyNode.fields (t : PyNode) : Drawn := t.map (Option.map GraphNode.shown)

/-- What is seen of a node is part of its fields. -/
theorem PyNode.seen_fields (t : PyNode) : t.fields.seen = t.seen := by
  rw [PyNode.fields, Drawn.seen, RoseTree.map_map, PyNode.seen]
  congr 1
  funext label
  cases label <;> rfl

/-- **A returned tree compared with a drawn one.** It is the drawn one if `P`, and is seen as the drawn one only then; and
if it is `free`, each of its nodes is copied the same. No edge leads to the root. -/
structure Result (tree : Drawn) (P free : Prop) (t : PyNode) : Prop where
  settled : ∀ label ∈ t.labels, ∀ node ∈ label, node.Settled
  root : Copyable (t.label.map GraphNode.shown)
  shows : P → t.fields = tree
  needs : t.seen = tree.seen → P
  copies : free → ∀ label ∈ t.labels, Copyable (label.map GraphNode.shown)

/-- The same of children. -/
structure ResultAll (trees : List Drawn) (P free : Prop) (ts : List PyNode) : Prop where
  settled : ∀ t ∈ ts, ∀ label ∈ t.labels, ∀ node ∈ label, node.Settled
  roots : ∀ t ∈ ts, Copyable (t.label.map GraphNode.shown)
  shows : P → ts.map PyNode.fields = trees
  needs : ts.map PyNode.seen = trees.map Drawn.seen → P
  copies : free → ∀ t ∈ ts, ∀ label ∈ t.labels, Copyable (label.map GraphNode.shown)

section

variable {baseAddress : List Int} {tree : Drawn} {trees : List Drawn} {P Q free free' : Prop} {t : PyNode}
  {ts : List PyNode}

/-- The condition under which a result is the expected one may be replaced by an equivalent one, and
freedom of edge labels may be asked of less. -/
theorem Result.congr (h : Result tree P free t) (hP : P ↔ Q) (hfree : free' → free) : Result tree Q free' t where
  settled := h.settled
  root := h.root
  shows hQ := h.shows (hP.mpr hQ)
  needs hseen := hP.mp (h.needs hseen)
  copies hf := h.copies (hfree hf)

/-- The same for the results of several operands. -/
theorem ResultAll.congr (h : ResultAll trees P free ts) (hP : P ↔ Q) (hfree : free' → free) :
    ResultAll trees Q free' ts where
  settled := h.settled
  roots := h.roots
  shows hQ := h.shows (hP.mpr hQ)
  needs hseen := hP.mp (h.needs hseen)
  copies hf := h.copies (hfree hf)

/-- No operand is drawn as none. -/
theorem ResultAll.nil : ResultAll [] True True [] where
  settled _ ht := absurd ht List.not_mem_nil
  roots _ ht := absurd ht List.not_mem_nil
  shows _ := rfl
  needs _ := trivial
  copies _ _ ht := absurd ht List.not_mem_nil

/-- The results of operands are compared position by position. -/
theorem ResultAll.cons (h : Result tree P free t) (hall : ResultAll trees Q free' ts) :
    ResultAll (tree :: trees) (P ∧ Q) (free ∧ free') (t :: ts) where
  settled := List.forall_mem_cons.mpr ⟨h.settled, hall.settled⟩
  roots := List.forall_mem_cons.mpr ⟨h.root, hall.roots⟩
  shows hPQ := by rw [List.map_cons, h.shows hPQ.1, hall.shows hPQ.2]
  needs hseen := by
    rw [List.map_cons, List.map_cons, List.cons.injEq] at hseen
    exact ⟨h.needs hseen.1, hall.needs hseen.2⟩
  copies hf := List.forall_mem_cons.mpr ⟨h.copies hf.1, hall.copies hf.2⟩

/-- The fields of a tree, node by node. -/
theorem PyNode.fields_node (label : Option GraphNode) (ts : List PyNode) :
    PyNode.fields (.node label ts) = .node (label.map GraphNode.shown) (ts.map PyNode.fields) := RoseTree.map_node _ _ _

/-- What is seen of a tree, node by node. -/
theorem PyNode.seen_node (label : Option GraphNode) (ts : List PyNode) :
    PyNode.seen (.node label ts) = .node (label.map GraphNode.drawn) (ts.map PyNode.seen) := RoseTree.map_node _ _ _

/-- What is seen of a drawn expression, node by node. -/
theorem Drawn.seen_node (label : Option Shown) (ts : List Drawn) :
    Drawn.seen (.node label ts) = .node (label.map visible) (ts.map Drawn.seen) := RoseTree.map_node _ _ _

/-- A new node of a value and a type. -/
def GraphNode.Made (baseAddress : List Int) (value type : String) (node : GraphNode) : Prop :=
  node.shown = (nodeValue baseAddress value, nodeTypeValue baseAddress value type, nodeTypeValue baseAddress value type, "")

/-- A node that was just made is one of its text and type, with any number. -/
theorem GraphNode.made (nodeId : Nat) (value type : String) :
    GraphNode.Made baseAddress value type ⟨nodeId, nodeValue baseAddress value, nodeTypeValue baseAddress value type,
      nodeTypeValue baseAddress value type, ""⟩ := rfl

/-- Translating its text again would change nothing, so it can be copied. -/
theorem GraphNode.Made.settled {value type : String} {node : GraphNode} (h : node.Made baseAddress value type) :
    node.Settled := by
  have hvalue : node.value = nodeValue baseAddress value := congrArg Prod.fst h
  rw [GraphNode.Settled, hvalue]
  exact nodeValue_settled baseAddress value

/-- A new node over its children. -/
theorem Result.node {value type : String} {node : GraphNode} (hnode : node.Made baseAddress value type)
    (h : ResultAll trees P free ts) : Result (drawnNode baseAddress value type trees) P free (.node (some node) ts) where
  settled := by
    rw [RoseTree.labels_node, List.forall_mem_cons]
    refine ⟨fun a ha => Option.some.inj ha ▸ hnode.settled, fun label hlabel => ?_⟩
    obtain ⟨t, ht, hlabel⟩ := List.mem_flatMap.mp hlabel
    exact h.settled t ht label hlabel
  root := by
    show Copyable (some node.shown)
    rw [hnode]
    exact copyable_some.mpr ⟨rfl, rfl⟩
  shows hP := by
    rw [PyNode.fields_node, h.shows hP, Option.map_some, hnode, drawnNode]
  needs hseen := by
    rw [PyNode.seen_node, drawnNode, Drawn.seen_node, RoseTree.node.injEq] at hseen
    exact h.needs hseen.2
  copies hf := by
    rw [RoseTree.labels_node, List.forall_mem_cons]
    refine ⟨?_, fun label hlabel => ?_⟩
    · rw [Option.map_some, hnode]
      exact copyable_some.mpr ⟨rfl, rfl⟩
    · obtain ⟨t, ht, hlabel⟩ := List.mem_flatMap.mp hlabel
      exact h.copies hf t ht label hlabel

/-- Neither is drawn. -/
theorem Result.none : Result drawnNone True True PyNode.none where
  settled := by
    rw [PyNode.none, RoseTree.labels_node, List.flatMap_nil, List.forall_mem_singleton]
    exact fun node h => absurd h (Option.not_mem_none node)
  root shown h := absurd h (Option.not_mem_none shown)
  shows _ := rfl
  needs _ := trivial
  copies _ := by
    rw [PyNode.none, RoseTree.labels_node, List.flatMap_nil, List.forall_mem_singleton]
    exact fun shown h => absurd h (Option.not_mem_none shown)

/-- A leaf in the place of another tree. -/
theorem Result.leafAs {value type : String} {node : GraphNode} (hnode : node.Made baseAddress value type)
    (hshows : P → drawnNode baseAddress value type [] = tree)
    (hneeds : (drawnNode baseAddress value type []).seen = tree.seen → P) : Result tree P True (.node (some node) []) := by
  have hleaf : Result (drawnNode baseAddress value type []) True True _ := .node hnode .nil
  refine ⟨hleaf.settled, hleaf.root, fun hP => (hleaf.shows trivial).trans (hshows hP), fun hseen => hneeds ?_, hleaf.copies⟩
  rw [← hseen, ← hleaf.shows trivial, PyNode.seen_fields]

/-! ## Edges -/

/-- An edge without a label changes nothing at a root. -/
theorem mapRoot_edge (h : Copyable (t.label.map GraphNode.shown)) : t.mapRoot (Option.map (GraphNode.withEdge "")) = t := by
  obtain ⟨label, ts⟩ := t
  cases label with
  | none => rfl
  | some node =>
    obtain ⟨nodeId, value, typeValue, type, edge⟩ := node
    obtain rfl : edge = "" := (copyable_some.mp h).2
    rfl

/-- Edges to new children change nothing. -/
theorem addEdges_inv {node : GraphNode} {s s' : GrapherState} (hroots : ∀ t ∈ ts, Copyable (t.label.map GraphNode.shown))
    (h : addEdges node ts s = some (t, s')) : t = .node (some node) ts ∧ s' = s := by
  rw [addEdges_eq] at h
  split at h
  · cases h
  · obtain ⟨rfl, rfl⟩ := Prod.mk.inj (Option.some.inj h)
    rw [List.map_congr_left fun t ht => mapRoot_edge (hroots t ht), List.map_id']
    exact ⟨rfl, rfl⟩

end

/-! ## Roots -/

/-- A root is seen as that of the tree, or has no type mark and is no target. -/
def Rooted (tree : Drawn) (t : PyNode) : Prop :=
  t.label.map GraphNode.drawn = tree.label.map visible ∨
    ∃ value, t.label.map GraphNode.drawn = some (value, "", "") ∧ ∀ text, value ≠ targetMark text

/-! ## What the visitor has kept -/

/-- What names stand for, and whether the nodes that are kept of them are drawn as that. -/
abbrev Known := Scope × Rights

section

variable (baseAddress : List Int)

/-- **What is kept of a name**: if its definition was seen, what the visit of it returned. -/
inductive Kept : Option Shared → Bool → Option PyNode → Prop
  | free (right : Bool) : Kept none right none
  | unseen (body : KqueryExpr) (right : Bool) : Kept (some ⟨body, false⟩) right none
  | seen {body : KqueryExpr} {right : Bool} {t : PyNode} (rooted : Rooted (body.drawn baseAddress) t)
    (result : Result (body.drawn baseAddress) (right = true) (body.updateFree = true) t) :
    Kept (some ⟨body, true⟩) right (some t)

/-- **The definitions the visitor has kept.** -/
def KeptAll (known : Known) (definitions : String → Option PyNode) : Prop :=
  ∀ name, Kept baseAddress (known.1 name) (known.2 name) (definitions name)

/-- **A visit compared with a tree**: where it does not raise, it returns what `Result` says, and keeps what is known
then. -/
def Compares (known : Known) (visit : Visit PyNode) (tree : Drawn) (next : Known) (P free : Prop) : Prop :=
  ∀ (s : GrapherState) (t : PyNode) (s' : GrapherState), KeptAll baseAddress known s.definitions →
    visit s = some (t, s') → Result tree P free t ∧ KeptAll baseAddress next s'.definitions

/-- Visits one after the other. -/
def ComparesAll (known : Known) (visits : List (Visit PyNode)) (trees : List Drawn) (next : Known) (P free : Prop) :
    Prop :=
  ∀ (s : GrapherState) (ts : List PyNode) (s' : GrapherState), KeptAll baseAddress known s.definitions →
    visitAll visits s = some (ts, s') → ResultAll trees P free ts ∧ KeptAll baseAddress next s'.definitions

/-- The root of what a visit returns. -/
def Roots (known : Known) (visit : Visit PyNode) (tree : Drawn) : Prop :=
  ∀ (s : GrapherState) (t : PyNode) (s' : GrapherState), KeptAll baseAddress known s.definitions →
    visit s = some (t, s') → Rooted tree t

variable {baseAddress} {known mid next : Known} {visit : Visit PyNode} {visits : List (Visit PyNode)} {tree : Drawn}
  {trees : List Drawn} {P Q free free' : Prop}

/-- What is defined out of the visitor's sight. -/
theorem KeptAll.hides {scope next : Scope} {rights : Rights} {definitions : String → Option PyNode}
    (h : KeptAll baseAddress (scope, rights) definitions) (hnext : scope.HidesIn next)
    (hkeep : ∀ name, scope name ≠ none → next name = scope name) : KeptAll baseAddress (next, rights) definitions := by
  intro name
  have hfree := h name
  show Kept baseAddress (next name) (rights name) (definitions name)
  by_cases hname : scope name = none
  · rcases hnext name with heq | ⟨body, heq⟩
    · rw [heq]
      exact hfree
    · replace hfree : Kept baseAddress (scope name) (rights name) (definitions name) := hfree
      rw [hname] at hfree
      rw [heq]
      generalize definitions name = kept at hfree
      cases hfree
      exact .unseen body _
  · rw [hkeep name hname]
    exact hfree

/-- Where the definition of a name is kept, remembering it keeps the state and what is known of it
in step. -/
theorem KeptAll.update {definitions : String → Option PyNode} (h : KeptAll baseAddress known definitions)
    {shared : Option Shared} {right : Bool} {t : Option PyNode} (hkept : Kept baseAddress shared right t) (name : String) :
    KeptAll baseAddress (Function.update known.1 name shared, Function.update known.2 name right)
      (Function.update definitions name t) := by
  intro other
  show Kept baseAddress (Function.update known.1 name shared other) (Function.update known.2 name right other) _
  by_cases hother : other = name
  · subst hother
    rw [Function.update_self, Function.update_self, Function.update_self]
    exact hkept
  · rw [Function.update_of_ne hother, Function.update_of_ne hother, Function.update_of_ne hother]
    exact h other

/-! ## One visit after the other -/

/-- The condition of a comparison may be replaced by an equivalent one. -/
theorem Compares.congr (h : Compares baseAddress known visit tree next P free) (hP : P ↔ Q) (hfree : free' → free) :
    Compares baseAddress known visit tree next Q free' := by
  intro s t s' hs hrun
  obtain ⟨hresult, hkept⟩ := h s t s' hs hrun
  exact ⟨hresult.congr hP hfree, hkept⟩

/-- So may that of several comparisons. -/
theorem ComparesAll.congr (h : ComparesAll baseAddress known visits trees next P free) (hP : P ↔ Q) (hfree : free' → free) :
    ComparesAll baseAddress known visits trees next Q free' := by
  intro s ts s' hs hrun
  obtain ⟨hresult, hkept⟩ := h s ts s' hs hrun
  exact ⟨hresult.congr hP hfree, hkept⟩

/-- Other knowledge of the same definitions. -/
theorem Compares.next_congr (h : Compares baseAddress known visit tree mid P free)
    (hnext : ∀ definitions, KeptAll baseAddress mid definitions → KeptAll baseAddress next definitions) :
    Compares baseAddress known visit tree next P free := by
  intro s t s' hs hrun
  obtain ⟨hresult, hkept⟩ := h s t s' hs hrun
  exact ⟨hresult, hnext _ hkept⟩

/-- Visiting no operand compares with drawing none. -/
theorem ComparesAll.nil : ComparesAll baseAddress known [] [] known True True := by
  intro s ts s' hs hrun
  obtain ⟨rfl, rfl⟩ := Prod.mk.inj (Option.some.inj hrun)
  exact ⟨.nil, hs⟩

/-- Comparisons of operands one after the other; what is known is handed on from one to the next. -/
theorem ComparesAll.cons (h : Compares baseAddress known visit tree mid P free)
    (hall : ComparesAll baseAddress mid visits trees next Q free') :
    ComparesAll baseAddress known (visit :: visits) (tree :: trees) next (P ∧ Q) (free ∧ free') := by
  intro s ts s' hs hrun
  rw [visitAll, Visit.bind_run] at hrun
  obtain ⟨⟨t, s1⟩, hvisit, hrun⟩ := Option.bind_eq_some_iff.mp hrun
  rw [Visit.bind_run] at hrun
  obtain ⟨⟨ts, s2⟩, hvisits, hrun⟩ := Option.bind_eq_some_iff.mp hrun
  obtain ⟨rfl, rfl⟩ := Prod.mk.inj (Option.some.inj hrun)
  obtain ⟨hresult, hs1⟩ := h s t s1 hs hvisit
  obtain ⟨hresults, hs2⟩ := hall s1 ts _ hs1 hvisits
  exact ⟨.cons hresult hresults, hs2⟩

/-- A comparison of one operand. -/
theorem ComparesAll.single (h : Compares baseAddress known visit tree next P free) :
    ComparesAll baseAddress known [visit] [tree] next P free :=
  (ComparesAll.cons h .nil).congr ⟨And.left, fun h => ⟨h, trivial⟩⟩ fun hfree => ⟨hfree, trivial⟩

/-! ## The visits of the grammar -/

variable (baseAddress) in
/-- **A new node over its operands**: where the visit does not raise, it visits the operands and makes the node, in one
order or the other, and draws edges, which have no label, to all operands or to none. -/
def Heads (value type : String) (visits : List (Visit PyNode)) (visit : Visit PyNode) : Prop :=
  ∀ (s : GrapherState) (t : PyNode) (s' : GrapherState), visit s = some (t, s') →
    ∃ (s0 s1 : GrapherState) (node : GraphNode) (ts : List PyNode), s0.definitions = s.definitions ∧
      visitAll visits s0 = some (ts, s1) ∧ s'.definitions = s1.definitions ∧ node.Made baseAddress value type ∧
        t.label = some node ∧ ((∀ t ∈ ts, Copyable (t.label.map GraphNode.shown)) → t = .node (some node) ts)

/-- An operator that visits its operands first has the node that it should have on top. -/
theorem Heads.operandsFirst (value type : String) (visits : List (Visit PyNode)) :
    Heads baseAddress value type visits (operandsFirst baseAddress value type visits) := by
  intro s t s' hrun
  rw [Assure.operandsFirst, Visit.bind_run] at hrun
  obtain ⟨⟨ts, s1⟩, hvisits, hrun⟩ := Option.bind_eq_some_iff.mp hrun
  rw [Visit.bind_run, newNode_run, Option.bind_some] at hrun
  have hedges := hrun
  rw [addEdges_eq] at hedges
  split at hedges
  · cases hedges
  · obtain ⟨rfl, rfl⟩ := Prod.mk.inj (Option.some.inj hedges)
    exact ⟨s, s1, _, ts, rfl, hvisits, rfl, GraphNode.made (s1.nodeId + 1) value type, rfl, fun hroots => (addEdges_inv hroots hrun).1⟩

/-- So has one that makes its node first. -/
theorem Heads.nodeFirst (value type : String) (visits : List (Visit PyNode)) :
    Heads baseAddress value type visits (nodeFirst baseAddress value type visits) := by
  intro s t s' hrun
  rw [Assure.nodeFirst, Visit.bind_run, newNode_run, Option.bind_some, Visit.bind_run] at hrun
  obtain ⟨⟨ts, s1⟩, hvisits, hrun⟩ := Option.bind_eq_some_iff.mp hrun
  have hedges := hrun
  rw [addEdges_eq] at hedges
  split at hedges
  · cases hedges
  · obtain ⟨rfl, rfl⟩ := Prod.mk.inj (Option.some.inj hedges)
    exact ⟨{ s with nodeId := s.nodeId + 1 }, _, _, ts, rfl, hvisits, rfl, GraphNode.made (s.nodeId + 1) value type, rfl, fun hroots => (addEdges_inv hroots hrun).1⟩

/-- So has a `Concat` or an `Extract`, with a type or without. -/
theorem Heads.bv (kind : BvKind) (type : Option String) (visit1 visit2 : Visit PyNode) :
    Heads baseAddress kind.text (type.getD "") [visit1, visit2] (visitBvExpr baseAddress kind type visit1 visit2) := by
  cases type with
  | none => exact Heads.nodeFirst kind.text "" _
  | some type =>
    intro s t s' hrun
    rw [visitBvExpr, Visit.bind_run, newNode_run, Option.bind_some, Visit.bind_run] at hrun
    obtain ⟨⟨ts, s1⟩, hvisits, hrun⟩ := Option.bind_eq_some_iff.mp hrun
    obtain ⟨rfl, rfl⟩ := Prod.mk.inj (Option.some.inj hrun)
    exact ⟨{ s with nodeId := s.nodeId + 1 }, _, _, ts, rfl, hvisits, rfl, GraphNode.made (s.nodeId + 1) kind.text type, rfl, fun _ => rfl⟩

/-- A leaf is nothing but the node on top. -/
theorem Heads.leafNode (value type : String) : Heads baseAddress value type [] (leafNode baseAddress value type) := by
  intro s t s' hrun
  obtain ⟨rfl, rfl⟩ := Prod.mk.inj (Option.some.inj hrun)
  exact ⟨s, s, _, [], rfl, rfl, rfl, GraphNode.made (s.nodeId + 1) value type, rfl, fun _ => rfl⟩

/-- A new node over operands that are compared. -/
theorem Heads.compares {value type : String} (hhead : Heads baseAddress value type visits visit)
    (h : ComparesAll baseAddress known visits trees next P free) :
    Compares baseAddress known visit (drawnNode baseAddress value type trees) next P free := by
  intro s t s' hs hrun
  obtain ⟨s0, s1, node, ts, hs0, hvisits, hs1, hnode, -, hnew⟩ := hhead s t s' hrun
  obtain ⟨hresults, hkept⟩ := h s0 ts s1 (hs0 ▸ hs) hvisits
  obtain rfl := hnew hresults.roots
  exact ⟨.node hnode hresults, hs1 ▸ hkept⟩

/-- What is on top of a visit is on top of the drawing, whatever became of the operands. -/
theorem Heads.roots {value type : String} (hhead : Heads baseAddress value type visits visit) (trees : List Drawn) :
    Roots baseAddress known visit (drawnNode baseAddress value type trees) := by
  intro s t s' _ hrun
  obtain ⟨_, _, node, _, -, -, -, hnode, hlabel, -⟩ := hhead s t s' hrun
  have hdrawn : node.drawn = visible node.shown := rfl
  left
  rw [hlabel, Option.map_some, hdrawn, hnode, drawnNode_label, Option.map_some]

/-- A leaf is drawn as itself on every condition. -/
theorem Compares.leafNode (value type : String) :
    Compares baseAddress known (leafNode baseAddress value type) (drawnNode baseAddress value type []) known True True :=
  (Heads.leafNode value type).compares .nil

/-- A node is left without a parent. -/
theorem Compares.skipNode (h : Compares baseAddress known visit tree next P free) (value type : String) :
    Compares baseAddress known (do
      let _ ← newNode baseAddress value type
      visit) tree next P free := fun s t s' hs hrun => h { s with nodeId := s.nodeId + 1 } t s' hs hrun

/-- A list of numbers is drawn as itself, since no name can be used in it. -/
theorem Compares.numberList : ∀ list : NumberList,
    Compares baseAddress known (visitNumberList baseAddress list) (list.drawn baseAddress) known True True
  | .single number => (Compares.leafNode number.text "").skipNode "number_list" ""
  | .cons number rest => by
    have hnumber : Compares baseAddress known _ _ known _ _ := Compares.leafNode number.text ""
    have hoperands := ComparesAll.cons hnumber (.single (Compares.numberList rest))
    exact ((Heads.operandsFirst "NumberList" "" _).compares
      (hoperands.congr and_self_iff fun h => ⟨h, h⟩)).skipNode "number_list" ""

/-- So is an initial value of an array. -/
theorem Compares.arrayInitializer : ∀ init : ArrayInitializer,
    Compares baseAddress known (visitArrayInitializer baseAddress init) (init.drawn baseAddress) known True True
  | .symbolic => (Heads.nodeFirst "array_initializer" "" _).compares (.single (Compares.leafNode "symbolic" ""))
  | .numbers list => (Heads.nodeFirst "array_initializer" "" _).compares (.single (Compares.numberList list))

/-- So is the declaration of an array. -/
theorem Compares.arrayDeclaration (name : String) (init : ArrayInitializer) :
    Compares baseAddress known (visitArrayDeclaration baseAddress name init)
      (drawnNode baseAddress "array" name [init.drawn baseAddress]) known True True :=
  (Heads.nodeFirst "array" name _).compares (.single (Compares.arrayInitializer init))

/-- `None` is returned. -/
theorem Compares.none : Compares baseAddress known (pure PyNode.none) drawnNone known True True := by
  intro s t s' hs hrun
  obtain ⟨rfl, rfl⟩ := Prod.mk.inj (Option.some.inj hrun)
  exact ⟨.none, hs⟩

/-- The operand is visited, and `None` returned. -/
theorem Compares.neg (type : Option String) (h : Compares baseAddress known visit tree next P free) :
    Compares baseAddress known (visitNegExpr baseAddress type visit) drawnNone next True True := by
  intro s t s' hs hrun
  rw [visitNegExpr, Visit.bind_run] at hrun
  obtain ⟨⟨negation, s1⟩, hnode, hrun⟩ := Option.bind_eq_some_iff.mp hrun
  obtain ⟨rfl, rfl⟩ := Prod.mk.inj (Option.some.inj hrun)
  have hoperand := (Heads.nodeFirst "Neg" (type.getD "") [visit]).compares (.single h)
  exact ⟨.none, (hoperand s negation _ hs hnode).2⟩

/-- A definition is kept. -/
theorem Compares.definition {body : KqueryExpr} {right : Bool} (hroot : Roots baseAddress known visit (body.drawn baseAddress))
    (h : Compares baseAddress known visit (body.drawn baseAddress) next (right = true) (body.updateFree = true))
    (name : String) : Compares baseAddress known (visitDefinition name visit) (body.drawn baseAddress)
      (Function.update next.1 name (some ⟨body, true⟩), Function.update next.2 name right) (right = true)
      (body.updateFree = true) := by
  intro s t s' hs hrun
  rw [visitDefinition, Visit.bind_run] at hrun
  obtain ⟨⟨t, s1⟩, hvisit, hrun⟩ := Option.bind_eq_some_iff.mp hrun
  obtain ⟨rfl, rfl⟩ := Prod.mk.inj (Option.some.inj hrun)
  obtain ⟨hresult, hkept⟩ := h s t s1 hs hvisit
  exact ⟨hresult, hkept.update (.seen (hroot s t s1 hs hvisit) hresult) name⟩

/-- A leaf in the place of another tree. -/
theorem Compares.leafAs {value type : String} (hshows : P → drawnNode baseAddress value type [] = tree)
    (hneeds : (drawnNode baseAddress value type []).seen = tree.seen → P) :
    Compares baseAddress known (Assure.leafNode baseAddress value type) tree known P True := by
  intro s t s' hs hrun
  obtain ⟨rfl, rfl⟩ := Prod.mk.inj (Option.some.inj hrun)
  exact ⟨.leafAs rfl hshows hneeds, hs⟩

/-! ## Uses -/

/-- What is copied is a tree of nodes. -/
theorem deepCopy_whole {t copy : PyNode} {s s' : GrapherState} (h : deepCopy baseAddress t s = some (copy, s')) :
    ∃ u : RoseTree GraphNode, t = u.map some := by
  have hkind := @Reckons.deepCopy baseAddress t s
  rw [h, Option.map_some, Returned.copy] at hkind
  split at hkind
  · rename_i hwhole
    have hlabels := kindOf_eq_whole.mp hwhole
    obtain ⟨node, -⟩ := Option.ne_none_iff_exists'.mp (hlabels _ t.label_mem_labels)
    refine ⟨t.map fun label => label.getD node, ?_⟩
    rw [RoseTree.map_map]
    refine t.map_id.symm.trans (t.map_eq_map_iff.mpr fun label hlabel => ?_)
    obtain ⟨node', rfl⟩ := Option.ne_none_iff_exists'.mp (hlabels label hlabel)
    rfl
  · cases hkind

/-- The fields of a copy, and its values. -/
theorem deepCopy_fields {t copy : PyNode} {s s' : GrapherState} (hsettled : ∀ label ∈ t.labels, ∀ node ∈ label, node.Settled)
    (h : deepCopy baseAddress t s = some (copy, s')) :
    copy.fields = t.fields.map (Option.map copyShown) ∧ (∀ label ∈ copy.labels, ∃ node, label = some node) ∧
      s'.definitions = s.definitions := by
  obtain ⟨u, rfl⟩ := deepCopy_whole h
  have hnodes : ∀ node ∈ u.labels, node.Settled := by
    intro node hnode
    refine hsettled (some node) ?_ node rfl
    rw [RoseTree.labels_map]
    exact List.mem_map_of_mem hnode
  obtain ⟨v, s'', hrun, -, hshown, hdefs⟩ := deepCopy_run u s hnodes
  rw [hrun] at h
  obtain ⟨rfl, rfl⟩ := Prod.mk.inj (Option.some.inj h)
  refine ⟨?_, ?_, hdefs⟩
  · have hmap := congrArg (RoseTree.map some) hshown
    rw [RoseTree.map_map, RoseTree.map_map] at hmap
    rw [PyNode.fields, PyNode.fields, RoseTree.map_map, RoseTree.map_map, RoseTree.map_map]
    exact hmap
  · rw [RoseTree.labels_map, List.forall_mem_map]
    exact fun node _ => ⟨node, rfl⟩

/-- A node is as settled as its fields. -/
theorem settled_of_fields {t t' : PyNode} (h : t'.fields = t.fields.map (Option.map copyShown))
    (ht : ∀ label ∈ t.labels, ∀ node ∈ label, node.Settled) : ∀ label ∈ t'.labels, ∀ node ∈ label, node.Settled := by
  intro label hlabel node hnode
  have hmem : label.map GraphNode.shown ∈ t'.fields.labels := by
    rw [PyNode.fields, RoseTree.labels_map]
    exact List.mem_map_of_mem hlabel
  rw [h, PyNode.fields, RoseTree.map_map, RoseTree.labels_map] at hmem
  obtain ⟨label', hlabel', heq⟩ := List.mem_map.mp hmem
  rw [hnode, Option.map_some] at heq
  obtain ⟨shown, hshown, hcopy⟩ := Option.map_eq_some_iff.mp heq
  obtain ⟨node', hnode', rfl⟩ := Option.map_eq_some_iff.mp hshown
  have hvalue : node'.value = node.value := congrArg Prod.fst hcopy
  have hsettled := ht label' hlabel' node' hnode'
  rw [GraphNode.Settled, hvalue] at hsettled
  exact hsettled

/-- Of a copy another copy would be the same. -/
theorem copyable_copy {t t' : PyNode} (h : t'.fields = t.fields.map (Option.map copyShown)) :
    ∀ label ∈ t'.labels, Copyable (label.map GraphNode.shown) := by
  intro label hlabel
  have hmem : label.map GraphNode.shown ∈ t'.fields.labels := by
    rw [PyNode.fields, RoseTree.labels_map]
    exact List.mem_map_of_mem hlabel
  rw [h, RoseTree.labels_map] at hmem
  obtain ⟨shown, -, heq⟩ := List.mem_map.mp hmem
  rw [← heq]
  intro shown' hshown'
  obtain ⟨shown'', -, rfl⟩ := Option.map_eq_some_iff.mp hshown'
  exact ⟨rfl, rfl⟩

/-- Where a drawn tree is seen as a tree of nodes without labelled edges. -/
theorem unlabelled_of_seen {t : PyNode} (hnodes : ∀ label ∈ t.labels, ∃ node, label = some node)
    (hcopyable : ∀ label ∈ t.labels, Copyable (label.map GraphNode.shown)) (h : t.seen = tree.seen) : Unlabelled tree := by
  intro a ha
  have hmem : a.map visible ∈ t.seen.labels := by
    rw [h, Drawn.seen, RoseTree.labels_map]
    exact List.mem_map_of_mem ha
  rw [PyNode.seen, RoseTree.labels_map] at hmem
  obtain ⟨label, hlabel, heq⟩ := List.mem_map.mp hmem
  obtain ⟨node, rfl⟩ := hnodes label hlabel
  obtain ⟨shown, rfl, hvisible⟩ := Option.map_eq_some_iff.mp heq.symm
  have hedge : shown.2.2.2 = node.edge := congrArg (fun drawn => drawn.2.2) hvisible
  exact ⟨shown, rfl, hedge.trans (copyable_some.mp (hcopyable _ hlabel)).2⟩

/-- **A copy compared with what a name stands for.** -/
theorem Result.copy {body : KqueryExpr} {right : Bool} {t copy : PyNode} {s s' : GrapherState}
    (hresult : Result (body.drawn baseAddress) (right = true) (body.updateFree = true) t)
    (h : deepCopy baseAddress t s = some (copy, s')) :
    Result (body.drawn baseAddress) ((right && body.updateFree) = true) True copy := by
  obtain ⟨hfields, hnodes, -⟩ := deepCopy_fields hresult.settled h
  have hcopyable := copyable_copy hfields
  refine ⟨settled_of_fields hfields hresult.settled, hcopyable _ copy.label_mem_labels, ?_, ?_, fun _ => hcopyable⟩
  · intro hright
    rw [Bool.and_eq_true] at hright
    rw [hfields, hresult.shows hright.1]
    exact copy_eq_of_copyable ((copiesIf_updateFree body).copyable hright.2)
  · intro hseen
    have hfree := (copiesIf_updateFree body).free_of (unlabelled_of_seen hnodes hcopyable hseen)
    have hsame : ∀ label ∈ t.fields.labels, Copyable label := by
      rw [PyNode.fields, RoseTree.labels_map, List.forall_mem_map]
      exact hresult.copies hfree
    rw [Bool.and_eq_true]
    refine ⟨hresult.needs ?_, hfree⟩
    rw [← PyNode.seen_fields, ← copy_eq_of_copyable hsame, ← hfields, PyNode.seen_fields, hseen]

/-- A copy has the root of what is kept. -/
theorem Rooted.copy {t copy : PyNode} (hrooted : Rooted tree t) (hroot : Copyable (t.label.map GraphNode.shown))
    (hfields : copy.fields = t.fields.map (Option.map copyShown)) : Rooted tree copy := by
  have hlabel := congrArg RoseTree.label hfields
  rw [PyNode.fields, PyNode.fields, RoseTree.label_map, RoseTree.label_map, RoseTree.label_map] at hlabel
  have hsame : copy.label.map GraphNode.drawn = t.label.map GraphNode.drawn := by
    have hdrawn : ∀ label : Option GraphNode, label.map GraphNode.drawn = (label.map GraphNode.shown).map visible := by
      rintro (_ | node) <;> rfl
    rw [hdrawn, hlabel, hdrawn]
    generalize t.label.map GraphNode.shown = shown at hroot
    cases shown with
    | none => rfl
    | some shown =>
      obtain ⟨htype, hedge⟩ := copyable_some.mp hroot
      exact congrArg some (Prod.ext rfl (Prod.ext htype.symm hedge.symm))
  rw [Rooted, hsame]
  exact hrooted

/-- A use of a name. -/
theorem Compares.identifier (name : Identifier) (scope : Scope) (rights : Rights)
    (hplain : ∀ shared, scope name.text = some shared → shared.body.plain = true) :
    Compares baseAddress (scope, rights) (visitIdentifier baseAddress name.text)
      (((KqueryExpr.identifier name).inline true scope).1.drawn baseAddress) (scope, rights)
      (((KqueryExpr.identifier name).shareable scope rights).1 = true) True := by
  rw [KqueryExpr.inline, KqueryExpr.shareable]
  intro s t s' hs hrun
  rw [visitIdentifier_run] at hrun
  have hkept : Kept baseAddress (scope name.text) (rights name.text) (s.definitions name.text) := hs name.text
  have hshared := hplain
  show Result ((((scope name.text).map Shared.body).getD (.identifier name)).drawn baseAddress)
    (((scope name.text).all fun shared => shared.sameAs (rights name.text) name) = true) True t ∧ _
  generalize hdef : s.definitions name.text = kept at hkept hrun
  generalize scope name.text = shared at hkept hshared
  cases hkept with
  | free =>
    rw [Option.map_none, Option.getD_none, KqueryExpr.drawn, Option.all_none]
    exact (Compares.leafNode name.text "").congr (iff_of_true trivial rfl) id s t s' hs hrun
  | unseen body =>
    rw [Option.map_some, Option.getD_some, Option.all_some]
    refine Compares.leafAs (fun hreads => ?_) (readsAsExpr_iff name (hshared _ rfl)).mp s t s' hs hrun
    cases body with
    | identifier other =>
      rw [KqueryExpr.drawn]
      exact drawn_eq_of_readsAs hreads
    | _ => cases hreads
  | @seen body _ kept _ hresult =>
    rw [Option.map_some, Option.getD_some, Option.all_some]
    replace hrun : deepCopy baseAddress kept s = some (t, s') := hrun
    obtain ⟨-, -, hdefs⟩ := deepCopy_fields hresult.settled hrun
    exact ⟨hresult.copy hrun, hdefs ▸ hs⟩

/-- A use of a name has on top what its definition has, whether it is copied or is a leaf. -/
theorem Roots.identifier (name : Identifier) (scope : Scope) (rights : Rights) :
    Roots baseAddress (scope, rights) (visitIdentifier baseAddress name.text)
      (((KqueryExpr.identifier name).inline true scope).1.drawn baseAddress) := by
  rw [KqueryExpr.inline]
  intro s t s' hs hrun
  rw [visitIdentifier_run] at hrun
  have hkept : Kept baseAddress (scope name.text) (rights name.text) (s.definitions name.text) := hs name.text
  have hleaf : leafNode baseAddress name.text "" s = some (t, s') →
      ∃ value, t.label.map GraphNode.drawn = some (value, "", "") ∧ ∀ text, value ≠ targetMark text := by
    intro hleaf
    obtain ⟨rfl, -⟩ := Prod.mk.inj (Option.some.inj hleaf)
    refine ⟨processValue name.text, ?_, processValue_ne_targetMark name⟩
    rw [← @Identifier.nodeValue_eq baseAddress name]
    exact congrArg some (Prod.ext rfl (Prod.ext (name.nodeTypeValue_eq "") rfl))
  show Rooted ((((scope name.text).map Shared.body).getD (.identifier name)).drawn baseAddress) t
  generalize s.definitions name.text = kept at hkept hrun
  generalize scope name.text = shared at hkept
  cases hkept with
  | free => exact .inr (hleaf hrun)
  | unseen body => exact .inr (hleaf hrun)
  | @seen body _ kept hrooted hresult =>
    exact hrooted.copy hresult.root (deepCopy_fields hresult.settled hrun).1

/-- **The root of a visit**: that of the tree of the inlined expression, or of a name that is not kept. -/
theorem visitExpr_root (scope : Scope) (rights : Rights) : ∀ e : KqueryExpr,
    Roots baseAddress (scope, rights) (visitExpr baseAddress e) ((e.inline true scope).1.drawn baseAddress)
  | .identifier name => by
    rw [visitExpr]
    exact .identifier name scope rights
  | .definition name e => by
    rw [visitExpr, KqueryExpr.inline]
    intro s t s' hs hrun
    rw [visitDefinition, Visit.bind_run] at hrun
    obtain ⟨⟨t, s1⟩, hvisit, hrun⟩ := Option.bind_eq_some_iff.mp hrun
    obtain ⟨rfl, -⟩ := Prod.mk.inj (Option.some.inj hrun)
    exact visitExpr_root scope rights e s t s1 hs hvisit
  | .number number => by
    rw [visitExpr, KqueryExpr.inline, KqueryExpr.drawn]
    exact (Heads.leafNode number.text "").roots []
  | .numberWithType .. => by
    rw [visitExpr, KqueryExpr.inline, KqueryExpr.drawn]
    intro s t s' _ hrun
    obtain ⟨rfl, -⟩ := Prod.mk.inj (Option.some.inj hrun)
    exact .inl rfl
  | .neg type e => by
    rw [visitExpr, KqueryExpr.inline, KqueryExpr.drawn]
    intro s t s' _ hrun
    rw [visitNegExpr, Visit.bind_run] at hrun
    obtain ⟨⟨negation, s1⟩, -, hrun⟩ := Option.bind_eq_some_iff.mp hrun
    obtain ⟨rfl, -⟩ := Prod.mk.inj (Option.some.inj hrun)
    exact .inl rfl
  | .bv kind type e1 e2 => by
    rw [visitExpr, KqueryExpr.inline, KqueryExpr.drawn]
    exact (Heads.bv kind type _ _).roots _
  | .arithmetic .. | .bitwise .. | .extension .. | .read .. | .arrayRead .. => by
    rw [visitExpr, KqueryExpr.inline, KqueryExpr.drawn]
    exact (Heads.operandsFirst _ _ _).roots _
  | .arrayDeclaration .. | .comparison .. | .select .. | .version .. => by
    rw [visitExpr, KqueryExpr.inline, KqueryExpr.drawn]
    exact (Heads.nodeFirst _ _ _).roots _

end

/-! ## Updates -/

section

variable {baseAddress : List Int} {known mid next : Known} {visits : List (Visit PyNode)} {tree : Drawn}
  {trees : List Drawn} {P Q free free' : Prop} {t : PyNode}

/-- Changing the root of a tree otherwise than in its text leaves all texts settled. -/
theorem settled_mapRoot {f : GraphNode → GraphNode} (hf : ∀ node, (f node).value = node.value)
    (h : ∀ label ∈ t.labels, ∀ node ∈ label, node.Settled) :
    ∀ label ∈ (t.mapRoot (Option.map f)).labels, ∀ node ∈ label, node.Settled := by
  obtain ⟨label, ts⟩ := t
  rw [RoseTree.labels_node, List.forall_mem_cons] at h
  rw [RoseTree.mapRoot, RoseTree.labels_node, List.forall_mem_cons]
  refine ⟨fun node hnode => ?_, h.2⟩
  obtain ⟨node', hnode', rfl⟩ := Option.map_eq_some_iff.mp hnode
  rw [GraphNode.Settled, hf]
  exact h.1 node' hnode'

/-- What changes the root of a tree changes the root of its fields. -/
theorem fields_mapRoot {f : GraphNode → GraphNode} {g : Shown → Shown} (h : ∀ node, (f node).shown = g node.shown)
    (t : PyNode) : PyNode.fields (t.mapRoot (Option.map f)) = t.fields.mapRoot (Option.map g) := by
  obtain ⟨label, ts⟩ := t
  rw [RoseTree.mapRoot, PyNode.fields_node, PyNode.fields_node, RoseTree.mapRoot, Option.map_map, Option.map_map]
  congr 2
  exact funext h

/-- The labels of the edges do not matter to what is below. -/
theorem same_of_edge {label : String} (ht : Copyable (t.label.map GraphNode.shown)) (htree : Copyable tree.label)
    (h : PyNode.seen (t.mapRoot (Option.map (GraphNode.withEdge label))) =
      Drawn.seen (tree.mapRoot (Option.map (withEdgeShown label)))) : t.seen = tree.seen := by
  obtain ⟨node?, ts⟩ := t
  obtain ⟨shown?, trees⟩ := tree
  rw [RoseTree.mapRoot, RoseTree.mapRoot, PyNode.seen_node, Drawn.seen_node, RoseTree.node.injEq] at h
  rw [PyNode.seen_node, Drawn.seen_node, RoseTree.node.injEq]
  refine ⟨?_, h.2⟩
  cases node? with
  | none =>
    cases shown? with
    | none => rfl
    | some shown => cases h.1
  | some node =>
    cases shown? with
    | none => cases h.1
    | some shown =>
      have hdrawn := Option.some.inj h.1
      have hvalue : node.value = shown.1 := congrArg Prod.fst hdrawn
      have htype : node.type = shown.2.2.1 := congrArg (fun drawn => drawn.2.1) hdrawn
      have hedge : node.edge = "" := (copyable_some.mp ht).2
      have hedge' : shown.2.2.2 = "" := (copyable_some.mp htree).2
      show some (node.value, node.type, node.edge) = some (shown.1, shown.2.2.1, shown.2.2.2)
      rw [hvalue, htype, hedge, hedge']

/-- Labelling the edge to a node shows in one field. -/
theorem withEdge_shown (label : String) (node : GraphNode) :
    (node.withEdge label).shown = withEdgeShown label node.shown := rfl

/-- An offset that is no number is not marked. -/
theorem offsetMark_of {offsetText : String} (h : isConcreteOffset offsetText = false) : offsetMark offsetText = id := by
  funext node
  rw [offsetMark, h]
  rfl

/-- Nothing of a mark is shown of it. -/
theorem markShown_of {offsetText : String} (h : isConcreteOffset offsetText = false) : markShown offsetText = id := by
  funext shown
  rw [markShown, h]
  rfl

/-- Whether a mark is shown depends only on whether the offset is a number. -/
theorem markShown_congr {offsetText otherText : String} (h : isConcreteOffset offsetText = isConcreteOffset otherText) :
    markShown offsetText = markShown otherText := by
  funext shown
  rw [markShown, markShown, h]

/-- A mark shows in one field. -/
theorem offsetMark_shown (offsetText : String) (node : GraphNode) :
    (offsetMark offsetText node).shown = markShown offsetText node.shown := by
  unfold offsetMark markShown
  split
  · rfl
  · rfl

/-- A mark does not show in the text. -/
theorem offsetMark_value (offsetText : String) (node : GraphNode) : (offsetMark offsetText node).value = node.value := by
  unfold offsetMark
  split
  · rfl
  · rfl

/-- Leaving the root alone leaves the tree alone. -/
theorem mapRoot_id {α : Type} (t : RoseTree (Option α)) : t.mapRoot (Option.map id) = t := by
  obtain ⟨label, ts⟩ := t
  rw [RoseTree.mapRoot, Option.map_id, id]

/-- What marking an offset has done if it did not raise. -/
theorem markOffset_inv {offsetText : String} {marked : PyNode} {s s' : GrapherState}
    (h : markOffset offsetText t s = some (marked, s')) :
    marked = t.mapRoot (Option.map (offsetMark offsetText)) ∧ s' = s := by
  rw [markOffset_eq] at h
  split at h
  · rename_i hmark
    split at h
    · cases h
    · obtain ⟨rfl, rfl⟩ := Prod.mk.inj (Option.some.inj h)
      refine ⟨?_, rfl⟩
      congr 2
      funext node
      exact (if_pos hmark).symm
  · rename_i hmark
    obtain ⟨rfl, rfl⟩ := Prod.mk.inj (Option.some.inj h)
    rw [offsetMark_of (by simpa using hmark), mapRoot_id]
    exact ⟨rfl, rfl⟩

/-- What adding an edge has done if it did not raise. -/
theorem addEdge_inv {edge : String} {child : PyNode} {s s' : GrapherState} (h : addEdge edge t s = some (child, s')) :
    child = t.mapRoot (Option.map (GraphNode.withEdge edge)) ∧ s' = s := by
  rw [addEdge_eq] at h
  split at h
  · cases h
  · obtain ⟨rfl, rfl⟩ := Prod.mk.inj (Option.some.inj h)
    exact ⟨rfl, rfl⟩

/-- What the visit of an update has done if it did not raise: it visited the offset and the value,
marked the one and labelled both edges. -/
theorem visitUpdate_inv {offsetText : String} {visitOffset visitValue : Visit PyNode} {s s' : GrapherState}
    (h : visitUpdate baseAddress offsetText visitOffset visitValue s = some (t, s')) :
    ∃ (node : GraphNode) (t1 t2 : PyNode) (s1 : GrapherState),
      visitOffset { s with nodeId := s.nodeId + 1 } = some (t1, s1) ∧ visitValue s1 = some (t2, s') ∧
        node.Made baseAddress "update_list_sub_node" "" ∧
          t = .node (some node) [(t1.mapRoot (Option.map (offsetMark offsetText))).mapRoot
            (Option.map (GraphNode.withEdge "offset")), t2.mapRoot (Option.map (GraphNode.withEdge "value"))] := by
  rw [visitUpdate, Visit.bind_run, newNode_run, Option.bind_some, Visit.bind_run] at h
  obtain ⟨⟨t1, s1⟩, hoffset, h⟩ := Option.bind_eq_some_iff.mp h
  rw [Visit.bind_run] at h
  obtain ⟨⟨marked, s2⟩, hmark, h⟩ := Option.bind_eq_some_iff.mp h
  rw [Visit.bind_run] at h
  obtain ⟨⟨t2, s3⟩, hvalue, h⟩ := Option.bind_eq_some_iff.mp h
  rw [Visit.bind_run] at h
  obtain ⟨⟨child1, s4⟩, hedge1, h⟩ := Option.bind_eq_some_iff.mp h
  rw [Visit.bind_run] at h
  obtain ⟨⟨child2, s5⟩, hedge2, h⟩ := Option.bind_eq_some_iff.mp h
  obtain ⟨rfl, rfl⟩ := Prod.mk.inj (Option.some.inj h)
  obtain ⟨rfl, rfl⟩ := markOffset_inv hmark
  obtain ⟨rfl, rfl⟩ := addEdge_inv hedge1
  obtain ⟨rfl, rfl⟩ := addEdge_inv hedge2
  exact ⟨_, t1, t2, _, hoffset, hvalue, GraphNode.made (s.nodeId + 1) "update_list_sub_node" "", rfl⟩

/-- **One update compared.** The offset is marked by its text. -/
theorem Compares.update {offsetText otherText : String} {visitOffset visitValue : Visit PyNode} {offset value : Drawn}
    (hoffset : Compares baseAddress known visitOffset offset mid P free)
    (hvalue : Compares baseAddress mid visitValue value next Q free') (hroot : Copyable offset.label)
    (hroot' : Copyable value.label) (hmarked : isConcreteOffset offsetText = true → isConcreteOffset otherText = true ∧ P)
    (hunmarked : isConcreteOffset otherText = true → ∀ (s : GrapherState) (t : PyNode) (s' : GrapherState),
      KeptAll baseAddress known s.definitions → visitOffset s = some (t, s') →
        ∃ node, t.label = some node ∧ node.type ≠ "concrete_klee_offset") :
    Compares baseAddress known (visitUpdate baseAddress offsetText visitOffset visitValue)
      (drawnUpdate baseAddress otherText offset value) next
      ((isConcreteOffset offsetText = isConcreteOffset otherText ∧ P) ∧ Q) False := by
  intro s t s' hs hrun
  obtain ⟨node, t1, t2, s1, hrun1, hrun2, hnode, rfl⟩ := visitUpdate_inv hrun
  obtain ⟨hresult1, hs1⟩ := hoffset { s with nodeId := s.nodeId + 1 } t1 s1 hs hrun1
  obtain ⟨hresult2, hs2⟩ := hvalue s1 t2 s' hs1 hrun2
  refine ⟨⟨?_, ?_, ?_, ?_, False.elim⟩, hs2⟩
  · rw [RoseTree.labels_node, List.forall_mem_cons]
    refine ⟨fun a ha => Option.some.inj ha ▸ hnode.settled, ?_⟩
    rw [List.flatMap_cons, List.flatMap_cons, List.flatMap_nil, List.append_nil, List.forall_mem_append]
    exact ⟨settled_mapRoot (fun _ => rfl) (settled_mapRoot (offsetMark_value offsetText) hresult1.settled),
      settled_mapRoot (fun _ => rfl) hresult2.settled⟩
  · show Copyable (some node.shown)
    rw [hnode]
    exact copyable_some.mpr ⟨rfl, rfl⟩
  · rintro ⟨⟨hmark, hP⟩, hQ⟩
    rw [PyNode.fields_node, List.map_cons, List.map_cons, List.map_nil, fields_mapRoot (withEdge_shown "offset"),
      fields_mapRoot (offsetMark_shown offsetText), fields_mapRoot (withEdge_shown "value"),
      hresult1.shows hP, hresult2.shows hQ, markShown_congr hmark, Option.map_some, hnode]
    rfl
  · intro hseen
    rw [PyNode.seen_node, drawnUpdate, drawnNode, Drawn.seen_node, RoseTree.node.injEq, List.map_cons, List.map_cons,
      List.map_cons, List.map_cons, List.cons.injEq, List.cons.injEq] at hseen
    obtain ⟨-, hseen1, hseen2, -⟩ := hseen
    refine ⟨?_, hresult2.needs (same_of_edge hresult2.root hroot' hseen2)⟩
    by_cases hmark : isConcreteOffset offsetText = true
    · rw [hmark, (hmarked hmark).1]
      exact ⟨rfl, (hmarked hmark).2⟩
    · have hmark : isConcreteOffset offsetText = false := by simpa using hmark
      rw [offsetMark_of hmark, mapRoot_id] at hseen1
      by_cases hother : isConcreteOffset otherText = true
      · -- the other offset alone is marked
        have hlabel := congrArg RoseTree.label hseen1
        rw [PyNode.seen, Drawn.seen, RoseTree.label_map, RoseTree.label_map, RoseTree.label_mapRoot, RoseTree.label_mapRoot,
          RoseTree.label_mapRoot] at hlabel
        obtain ⟨node1, hnode1, htype⟩ := hunmarked hother { s with nodeId := s.nodeId + 1 } t1 s1 hs hrun1
        rw [hnode1] at hlabel
        cases hshown : offset.label with
        | none =>
          rw [hshown] at hlabel
          cases hlabel
        | some shown =>
          rw [hshown, Option.map_some, Option.map_some, Option.map_some, markShown, if_pos hother] at hlabel
          exact absurd (congrArg (fun drawn => drawn.2.1) (Option.some.inj hlabel)) htype
      · have hother : isConcreteOffset otherText = false := by simpa using hother
        rw [markShown_of hother, mapRoot_id] at hseen1
        rw [hmark, hother]
        exact ⟨rfl, hresult1.needs (same_of_edge hresult1.root hroot hseen1)⟩

/-- Only a number has the text of a constant offset. -/
theorem isConcreteOffset_text {e : KqueryExpr} (h : isConcreteOffset e.text = true) :
    ∃ number, e = .number number ∧ checkKleeOffset number.text = false := by
  rw [isConcreteOffset, Bool.and_eq_true] at h
  obtain ⟨hlength, hdigits⟩ := h
  cases e with
  | number number =>
    refine ⟨number, rfl, ?_⟩
    rw [KqueryExpr.text] at hlength
    rw [checkKleeOffset, Bool.and_eq_false_iff]
    rw [Bool.or_eq_true, beq_iff_eq, beq_iff_eq] at hlength
    left
    rw [beq_eq_false_iff_ne]
    omega
  | identifier name =>
    have hname := name.isConcreteOffset_eq
    rw [KqueryExpr.text] at hlength hdigits
    rw [isConcreteOffset, hlength, hdigits] at hname
    cases hname
  | _ =>
    rw [KqueryExpr.text] at hdigits
    simp [String.toList_append, List.all_append] at hdigits

/-- The mark of a target tells its text. -/
theorem Compares.target (targetText otherText : String) :
    Compares baseAddress known (Assure.leafNode baseAddress (targetMark targetText) "")
      (drawnNode baseAddress (targetMark otherText) "" []) known (targetText = otherText) True := by
  refine Compares.leafAs (fun h => by rw [h]) fun h => ?_
  rw [drawnNode, drawnNode, Drawn.seen_node, Drawn.seen_node, RoseTree.node.injEq, nodeValue_targetMark,
    nodeValue_targetMark] at h
  exact targetMark_injective (congrArg Prod.fst (Option.some.inj h.1))

/-- An update list, if there is one, and what it updates. -/
theorem Compares.updated {updates : KqueryUpdates} {inlined : KqueryUpdates} {targetText otherText : String}
    (hnil : updates.isNil = inlined.isNil) (hP : updates.isNil = true → P)
    (h : ComparesAll baseAddress known (visitUpdates baseAddress updates) (inlined.drawn baseAddress) mid P free)
    (hnext : ∀ definitions, KeptAll baseAddress mid definitions → KeptAll baseAddress next definitions) :
    Compares baseAddress known (visitUpdated baseAddress (visitUpdates baseAddress updates) targetText)
      (drawnUpdated baseAddress (inlined.drawn baseAddress) otherText) next (P ∧ targetText = otherText)
      (inlined.isNil = true) := by
  have htarget : Compares baseAddress mid _ _ next _ True := (Compares.target targetText otherText).next_congr hnext
  apply (Heads.nodeFirst "version" "" _).compares
  cases updates with
  | nil =>
    cases inlined with
    | cons => cases hnil
    | nil =>
      rw [visitUpdates, KqueryUpdates.drawn] at *
      -- nothing was visited
      have hmid : ∀ definitions, KeptAll baseAddress known definitions → KeptAll baseAddress mid definitions :=
        fun definitions hs => (h ⟨0, definitions⟩ [] ⟨0, definitions⟩ hs rfl).2
      intro s ts s' hs hrun
      obtain ⟨hresult, hkept⟩ := ComparesAll.single htarget s ts s' (hmid _ hs) hrun
      exact ⟨hresult.congr (and_iff_right (hP rfl)).symm fun _ => trivial, hkept⟩
  | cons offset value rest =>
    cases inlined with
    | nil => cases hnil
    | cons offset' value' rest' =>
      rw [visitUpdates, KqueryUpdates.drawn] at *
      have hlist : Compares baseAddress known _ _ mid P False :=
        ((Heads.nodeFirst "update_list" "" _).compares h).congr Iff.rfl False.elim
      refine (ComparesAll.cons hlist (.single htarget)).congr Iff.rfl fun hfree => ?_
      cases hfree

end

end Assure
