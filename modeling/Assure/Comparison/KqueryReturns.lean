import Assure.Comparison.KqueryGrapher

/-!
# What a visit returns

A number in parentheses and a negation give `None`. Most operators raise where an operand is `None`; a `Concat` or an
`Extract` with a type leaves it without an edge. So a visit returns `None`, or a node with a `None` somewhere below it,
or a tree of nodes, and a use of a name raises unless its definition gave the last. `returns` reckons that alone, without
ids, labels and edges, and the visitor does as it reckons (`visitExpr_returns`): it raises exactly if `raises` says so.
-/

namespace Assure

open Assure.Library

/-- What a visit returns: `None`, a node with a `None` below it, or a tree of nodes. -/
inductive Returned
  | nothing
  | partly
  | whole
  deriving DecidableEq

/-- What the visits of the definitions have returned. -/
abbrev Kinds := String → Option Returned

/-- **What a visit returns**, if it does not raise. -/
abbrev Reckoning := StateT Kinds Option Returned

/-- A visit and then another one. -/
theorem Reckoning.bind_run {α β : Type} (first : StateT Kinds Option α) (next : α → StateT Kinds Option β) (kinds : Kinds) :
    (first >>= next) kinds = (first kinds).bind fun result => next result.1 result.2 := rfl

/-- One after the other. -/
def returnsAll : List Reckoning → StateT Kinds Option (List Returned)
  | [] => return []
  | operand :: operands => do
    let r ← operand
    let rs ← returnsAll operands
    return r :: rs

/-- What a node over its children is. -/
def Returned.over (children : List Returned) : Returned :=
  if ∀ child ∈ children, child = .whole then .whole else .partly

/-- An operator that needs its operands. -/
def strictly (operands : List Reckoning) : Reckoning := do
  let rs ← returnsAll operands
  if .nothing ∈ rs then failure else return .over rs

/-- An operator that does without. -/
def tolerantly (operands : List Reckoning) : Reckoning := do
  let rs ← returnsAll operands
  return .over rs

/-- A copy. -/
def Returned.copy (kept : Returned) : Reckoning := if kept = .whole then pure .whole else failure

/-- An update list, if there is one, and what it updates. -/
def returnsUpdated (updates : List Reckoning) : Reckoning :=
  strictly ((if updates.isEmpty then [] else [strictly updates]) ++ [pure .whole])

mutual

/-- **What the visit of an expression returns.** -/
def KqueryExpr.returns : KqueryExpr → Reckoning
  | .identifier name => do
    match (← get) name.text with
    | some kept => kept.copy
    | none => return .whole
  | .number _ | .arrayDeclaration .. => return .whole
  | .definition name e => do
    let r ← e.returns
    modify fun kinds => Function.update kinds name.text r
    return r
  | .numberWithType .. => return .nothing
  | .arithmetic _ _ e1 e2 | .bitwise _ _ e1 e2 | .comparison _ _ e1 e2 => strictly [e1.returns, e2.returns]
  | .bv _ type e1 e2 =>
    if type.isSome then tolerantly [e1.returns, e2.returns] else strictly [e1.returns, e2.returns]
  | .extension _ _ e => strictly [e.returns]
  | .read _ e version | .arrayRead _ _ e version => strictly [e.returns, version.returns]
  | .select _ e1 e2 e3 => strictly [e1.returns, e2.returns, e3.returns]
  | .neg _ e => do
    let _ ← strictly [e.returns]
    return .nothing
  | .version updates _ => returnsUpdated updates.returns

/-- The same of a version. -/
def KqueryVersion.returns : KqueryVersion → Reckoning
  | .updated updates _ => returnsUpdated updates.returns
  | .name _ => return .whole
  | .definition _ e => strictly [e.returns]

/-- The same of the pairs of an update list. -/
def KqueryUpdates.returns : KqueryUpdates → List Reckoning
  | .nil => []
  | .cons offset value rest => strictly [offset.returns, value.returns] :: rest.returns

end

/-- **The visit raises.** -/
def KqueryExpr.raises (e : KqueryExpr) : Bool := (e.returns fun _ => none).isNone

/-! ## The kind of a node -/

/-- What a node is. -/
def kindOf (t : PyNode) : Returned :=
  if t.label = none then .nothing else if ∀ label ∈ t.labels, label ≠ none then .whole else .partly

/-- What the nodes of the definitions are. -/
def kinds (definitions : String → Option PyNode) : Kinds := fun name => (definitions name).map kindOf

/-- A visit has returned nothing exactly if its root is no node. -/
theorem kindOf_eq_nothing {t : PyNode} : (kindOf t) = .nothing ↔ t.label = none := by
  unfold kindOf
  split
  · rename_i h
    exact iff_of_true rfl h
  · rename_i h
    refine iff_of_false ?_ h
    split <;> decide

/-- A visit has returned a tree of nodes exactly if none of them is missing. -/
theorem kindOf_eq_whole {t : PyNode} : (kindOf t) = .whole ↔ ∀ label ∈ t.labels, label ≠ none := by
  obtain ⟨a, ts⟩ := t
  have hroot : (∀ label ∈ (RoseTree.node a ts).labels, label ≠ none) → a ≠ none := by
    intro h
    rw [RoseTree.labels_node] at h
    exact h a List.mem_cons_self
  unfold kindOf
  split
  · rename_i h
    exact iff_of_false (by decide) fun hall => hroot hall h
  · split
    · rename_i h
      exact iff_of_true rfl h
    · rename_i h
      exact iff_of_false (by decide) h

/-- A node over its children. -/
theorem kindOf_node (node : GraphNode) (ts : List PyNode) :
    kindOf (.node (some node) ts) = .over (ts.map kindOf) := by
  have hwhole : (∀ label ∈ (RoseTree.node (some node) ts).labels, label ≠ none) ↔
      ∀ child ∈ ts.map kindOf, child = .whole := by
    rw [RoseTree.labels_node, List.forall_mem_cons, List.forall_mem_map]
    simp only [kindOf_eq_whole, List.mem_flatMap, forall_exists_index, and_imp]
    exact ⟨fun h t ht label hl => h.2 label t ht hl, fun h => ⟨Option.some_ne_none node, fun label t ht hl => h t ht label hl⟩⟩
  have hsome : (RoseTree.node (some node) ts).label ≠ none := Option.some_ne_none node
  rw [kindOf, if_neg hsome, Returned.over]
  exact if_congr hwhole rfl rfl

/-- An edge to a node does not change what the node is. -/
theorem kindOf_mapRoot (f : GraphNode → GraphNode) (t : PyNode) : kindOf (t.mapRoot (Option.map f)) = (kindOf t) := by
  obtain ⟨a, ts⟩ := t
  cases a with
  | none => rfl
  | some node => rw [RoseTree.mapRoot, Option.map_some, kindOf_node, kindOf_node]

/-! ## Edges -/

/-- Adding an edge raises exactly if there is no node to lead it to, whose attribute is read. -/
theorem addEdge_eq (label : String) (t : PyNode) (s : GrapherState) : addEdge label t s =
    if t.label = none then none else some (t.mapRoot (Option.map (GraphNode.withEdge label)), s) := by
  obtain ⟨a, ts⟩ := t
  cases a with
  | none => rfl
  | some node => rfl

/-- Edges to all children, which are nodes. -/
theorem addEdges_eq (node : GraphNode) (ts : List PyNode) (s : GrapherState) : addEdges node ts s =
    if none ∈ ts.map RoseTree.label then none
    else some (.node (some node) (ts.map (RoseTree.mapRoot (Option.map (GraphNode.withEdge "")))), s) := by
  have hedges : ∀ ts : List PyNode, ts.mapM (addEdge "") s = if none ∈ ts.map RoseTree.label then none
      else some (ts.map (RoseTree.mapRoot (Option.map (GraphNode.withEdge ""))), s) := by
    intro ts
    induction ts with
    | nil => rfl
    | cons t ts ih =>
      rw [List.mapM_cons, Visit.bind_run, addEdge_eq, List.map_cons]
      by_cases ht : t.label = none
      · rw [if_pos ht, if_pos (List.mem_cons.mpr (.inl ht.symm))]
        rfl
      · have hmem : none ∈ t.label :: ts.map RoseTree.label ↔ none ∈ ts.map RoseTree.label := by
          rw [List.mem_cons, or_iff_right (Ne.symm ht)]
        rw [if_neg ht, Option.bind_some, Visit.bind_run, ih, if_congr hmem rfl rfl]
        split
        · rfl
        · rfl
  rw [addEdges, Visit.bind_run, hedges]
  split
  · rfl
  · rfl

/-- Marking an offset raises exactly if it is a constant and there is no node to mark. -/
theorem markOffset_eq (offsetText : String) (t : PyNode) (s : GrapherState) : markOffset offsetText t s =
    if isConcreteOffset offsetText = true then
      if t.label = none then none
      else some (t.mapRoot (Option.map fun node => { node with type := "concrete_klee_offset" }), s)
    else some (t, s) := by
  unfold markOffset
  split
  · obtain ⟨a, ts⟩ := t
    cases a with
    | none => rfl
    | some node => rfl
  · rfl

/-! ## The visitor does as is reckoned -/

section

variable {baseAddress : List Int}

/-- **A visit does what is reckoned**: it raises where that fails, and else returns what is reckoned and leaves
definitions of the kinds that are reckoned. -/
def Reckons {α β : Type} (f : α → β) (visit : Visit α) (reckoned : StateT Kinds Option β) : Prop :=
  ∀ s, (visit s).map (fun result => (f result.1, kinds result.2.definitions)) = reckoned (kinds s.definitions)

/-- Returning a value is reckoned by returning its kind. -/
theorem Reckons.pure {α β : Type} (f : α → β) (a : α) : Reckons f (Pure.pure a) (Pure.pure (f a)) := fun _ => rfl

/-- Reckonings follow visits step by step. The kinds of the names are those of the state in which
the second visit starts. -/
theorem Reckons.bind {α β γ δ : Type} {f : α → β} {g : γ → δ} {visit : Visit α} {reckoned : StateT Kinds Option β}
    {next : α → Visit γ} {more : β → StateT Kinds Option δ} (h : Reckons f visit reckoned)
    (hnext : ∀ a, Reckons g (next a) (more (f a))) : Reckons g (visit >>= next) (reckoned >>= more) := by
  intro s
  rw [Visit.bind_run, Reckoning.bind_run, ← h s]
  cases visit s with
  | none => rfl
  | some result => exact hnext result.1 result.2

/-- A new node changes no definition. -/
theorem Reckons.newNode {γ δ : Type} {g : γ → δ} {next : GraphNode → Visit γ} {reckoned : StateT Kinds Option δ}
    (value type : String) (h : ∀ node, Reckons g (next node) reckoned) :
    Reckons g (newNode baseAddress value type >>= next) reckoned := fun s => h _ { s with nodeId := s.nodeId + 1 }

variable {visit visit1 visit2 : Visit PyNode} {visits : List (Visit PyNode)} {reckoned reckoned1 reckoned2 : Reckoning}
  {all : List Reckoning}

/-- Visits one after the other. -/
theorem Reckons.visitAll (h : List.Forall₂ (Reckons kindOf) visits all) :
    Reckons (List.map kindOf) (visitAll visits) (returnsAll all) := by
  induction h with
  | nil => exact .pure _ []
  | cons h _ ih => exact h.bind fun t => ih.bind fun ts => .pure (List.map kindOf) (t :: ts)

/-- Leading edges to the operands raises if one is missing, and gives a node over them otherwise. -/
theorem Reckons.addEdges (node : GraphNode) (ts : List PyNode) : Reckons kindOf (addEdges node ts)
    (if .nothing ∈ ts.map kindOf then failure else Pure.pure (.over (ts.map kindOf))) := by
  intro s
  have hnone : none ∈ ts.map RoseTree.label ↔ .nothing ∈ ts.map kindOf := by
    rw [List.mem_map, List.mem_map]
    exact exists_congr fun t => and_congr_right fun _ => kindOf_eq_nothing.symm
  have hkinds : (ts.map (RoseTree.mapRoot (Option.map (GraphNode.withEdge "")))).map kindOf =
      ts.map kindOf := by
    rw [List.map_map]
    exact List.map_congr_left fun t _ => kindOf_mapRoot _ t
  rw [addEdges_eq, if_congr hnone rfl rfl]
  split
  · rfl
  · rw [Option.map_some, kindOf_node, hkinds]
    rfl

/-- An operator that visits its operands first is reckoned strictly: none of them may be missing. -/
theorem Reckons.operandsFirst (value type : String) (h : List.Forall₂ (Reckons kindOf) visits all) :
    Reckons kindOf (operandsFirst baseAddress value type visits) (strictly all) :=
  (Reckons.visitAll h).bind fun children => .newNode value type fun node => .addEdges node children

/-- So is one that makes its node first, since the edges come last all the same. -/
theorem Reckons.nodeFirst (value type : String) (h : List.Forall₂ (Reckons kindOf) visits all) :
    Reckons kindOf (nodeFirst baseAddress value type visits) (strictly all) :=
  .newNode value type fun node => (Reckons.visitAll h).bind fun children => .addEdges node children

/-- A leaf is a tree of one node. -/
theorem Reckons.leafNode (value type : String) :
    Reckons kindOf (leafNode baseAddress value type) (Pure.pure .whole) := fun _ => rfl

/-- A `Concat` or an `Extract` with a type tolerates a missing operand and gives a node without that
edge. Without a type it is as strict as the rest. -/
theorem Reckons.bv (kind : BvKind) (type : Option String) (h : List.Forall₂ (Reckons kindOf) [visit1, visit2] all) :
    Reckons kindOf (visitBvExpr baseAddress kind type visit1 visit2)
      (if type.isSome then tolerantly all else strictly all) := by
  cases type with
  | none => exact .nodeFirst kind.text "" h
  | some type =>
    refine .newNode kind.text type fun node => (Reckons.visitAll h).bind fun children => ?_
    rw [← kindOf_node node]
    exact .pure kindOf _

mutual

/-- A copy is made of a tree of nodes only. -/
theorem Reckons.deepCopy : ∀ t : PyNode, Reckons kindOf (deepCopy baseAddress t) (kindOf t).copy
  | .node none _ => fun _ => rfl
  | .node (some node) children => by
    have hcopy : (kindOf (.node (some node) children)).copy =
        (if ∀ child ∈ children.map kindOf, child = .whole then Pure.pure (children.map kindOf) else failure) >>=
          fun copies => Pure.pure (.over copies) := by
      rw [kindOf_node, Returned.over]
      split
      · rename_i hall
        funext kinds
        show some (Returned.whole, kinds) = some (Returned.over (children.map kindOf), kinds)
        rw [Returned.over, if_pos hall]
      · rfl
    rw [Assure.deepCopy, hcopy]
    refine .newNode node.value node.typeValue fun copied => (Reckons.deepCopyAll children).bind fun copies => ?_
    rw [← kindOf_node copied]
    exact .pure kindOf _

/-- Copying raises exactly if somewhere in the trees a node is missing, and gives as many trees of
the same kinds otherwise. -/
theorem Reckons.deepCopyAll : ∀ ts : List PyNode, Reckons (List.map kindOf) (deepCopyAll baseAddress ts)
    (if ∀ child ∈ ts.map kindOf, child = .whole then Pure.pure (ts.map kindOf) else failure)
  | [] => .pure _ []
  | t :: ts => by
    have hcopies : (if ∀ child ∈ (t :: ts).map kindOf, child = .whole then
          (Pure.pure ((t :: ts).map kindOf) : StateT Kinds Option (List Returned)) else failure) =
        (kindOf t).copy >>= fun copy =>
          (if ∀ child ∈ ts.map kindOf, child = .whole then Pure.pure (ts.map kindOf) else failure) >>=
            fun copies => Pure.pure (copy :: copies) := by
      rw [List.map_cons, if_congr List.forall_mem_cons rfl rfl, Returned.copy]
      by_cases ht : kindOf t = .whole
      · rw [if_pos ht, ht]
        by_cases hts : ∀ child ∈ ts.map kindOf, child = .whole
        · rw [if_pos ⟨rfl, hts⟩, if_pos hts]
          rfl
        · rw [if_neg fun h => hts h.2, if_neg hts]
          rfl
      · rw [if_neg ht, if_neg fun h => ht h.1]
        rfl
    rw [Assure.deepCopyAll, hcopies]
    exact (Reckons.deepCopy t).bind fun copy => (Reckons.deepCopyAll ts).bind fun copies =>
      .pure (List.map kindOf) (copy :: copies)

end

/-- A use of a name raises exactly if its definition returned anything but a tree of nodes. -/
theorem Reckons.identifier (name : Identifier) :
    Reckons kindOf (visitIdentifier baseAddress name.text) (KqueryExpr.identifier name).returns := by
  intro s
  rw [visitIdentifier_run, KqueryExpr.returns]
  have hkept : ∀ kept, kinds s.definitions name.text = kept → (do
      match (← get) name.text with
      | some kept => Returned.copy kept
      | none => return .whole : Reckoning) (kinds s.definitions) =
        (kept.elim (Pure.pure .whole) Returned.copy : Reckoning) (kinds s.definitions) := by
    rintro kept rfl
    cases hkind : kinds s.definitions name.text with
    | none =>
      show (match kinds s.definitions name.text with
        | some kept => Returned.copy kept
        | none => Pure.pure .whole : Reckoning) (kinds s.definitions) = _
      rw [hkind]
      rfl
    | some kept =>
      show (match kinds s.definitions name.text with
        | some kept => Returned.copy kept
        | none => Pure.pure .whole : Reckoning) (kinds s.definitions) = _
      rw [hkind]
      rfl
  cases hdef : s.definitions name.text with
  | none =>
    rw [hkept none (by rw [kinds, hdef]; rfl)]
    exact Reckons.leafNode name.text "" s
  | some t =>
    rw [hkept (some (kindOf t)) (by rw [kinds, hdef]; rfl)]
    exact Reckons.deepCopy t s

/-- A definition returns what its expression returns and is remembered with that kind. -/
theorem Reckons.definition (name : String) (h : Reckons kindOf visit reckoned) :
    Reckons kindOf (visitDefinition name visit) (do
      let r ← reckoned
      modify fun kinds => Function.update kinds name r
      return r) := by
  refine h.bind fun t s => ?_
  show some (kindOf t, kinds (Function.update s.definitions name t)) =
    some (kindOf t, Function.update (kinds s.definitions) name (kindOf t))
  congr 2
  funext other
  rw [kinds]
  by_cases hother : other = name
  · rw [hother, Function.update_self, Function.update_self]
    rfl
  · rw [Function.update_of_ne hother, Function.update_of_ne hother]
    rfl

/-- A negation visits its operand, which may raise, and then returns nothing. -/
theorem Reckons.neg (type : Option String) (h : Reckons kindOf visit reckoned) :
    Reckons kindOf (visitNegExpr baseAddress type visit) (do
      let _ ← strictly [reckoned]
      return .nothing) :=
  (Reckons.nodeFirst "Neg" (type.getD "") (.cons h .nil)).bind fun _ => .pure kindOf PyNode.none

/-- Two operands that are needed. -/
theorem strictly_pair (kinds : Kinds) : strictly [reckoned1, reckoned2] kinds =
    (reckoned1 kinds).bind fun first => (reckoned2 first.2).bind fun second =>
      if .nothing ∈ [first.1, second.1] then none else some (.over [first.1, second.1], second.2) := by
  show ((reckoned1 kinds).bind fun first => ((reckoned2 first.2).bind fun second =>
    some ([second.1], second.2)).bind fun rest => some (first.1 :: rest.1, rest.2)).bind (fun all =>
      (if .nothing ∈ all.1 then failure else Pure.pure (.over all.1) : Reckoning) all.2) = _
  cases reckoned1 kinds with
  | none => rfl
  | some first =>
    rw [Option.bind_some, Option.bind_some]
    cases reckoned2 first.2 with
    | none => rfl
    | some second =>
      show (if .nothing ∈ [first.1, second.1] then failure else Pure.pure (.over [first.1, second.1]) : Reckoning) second.2 =
        if .nothing ∈ [first.1, second.1] then none else some (.over [first.1, second.1], second.2)
      split
      · rfl
      · rfl

/-- The mark is set at a node, and only there. -/
theorem markOffset_kind (offsetText : String) {t : PyNode} (ht : t.label ≠ none) (s : GrapherState) :
    ∃ t' : PyNode, markOffset offsetText t s = some (t', s) ∧ kindOf t' = kindOf t ∧ t'.label ≠ none := by
  rw [markOffset_eq]
  split
  · refine ⟨_, rfl, kindOf_mapRoot _ t, ?_⟩
    rw [RoseTree.label_mapRoot, Ne, Option.map_eq_none_iff]
    exact ht
  · exact ⟨t, rfl, rfl, ht⟩

/-- An update is strict in its offset and its value. -/
theorem Reckons.update (offsetText : String) (hoffset : Reckons kindOf visit1 reckoned1)
    (hvalue : Reckons kindOf visit2 reckoned2) :
    Reckons kindOf (visitUpdate baseAddress offsetText visit1 visit2) (strictly [reckoned1, reckoned2]) := by
  refine .newNode "update_list_sub_node" "" fun node s => ?_
  rw [strictly_pair, ← hoffset s, Visit.bind_run]
  cases visit1 s with
  | none => rfl
  | some first =>
    obtain ⟨t1, s1⟩ := first
    rw [Option.bind_some, Option.map_some, Option.bind_some, ← hvalue s1, Visit.bind_run]
    by_cases ht1 : t1.label = none
    · -- the offset is `None`: the mark or the edge raises
      have hin : ∀ second, .nothing ∈ [kindOf t1, second] := fun second =>
        List.mem_cons.mpr (.inl (kindOf_eq_nothing.mpr ht1).symm)
      have hright : ((visit2 s1).map fun result => (kindOf result.1, kinds result.2.definitions)).bind (fun second =>
          if .nothing ∈ [kindOf t1, second.1] then none else some (Returned.over [kindOf t1, second.1], second.2)) =
            none := by
        cases visit2 s1 with
        | none => rfl
        | some second => exact if_pos (hin _)
      rw [hright, markOffset_eq, if_pos ht1]
      split
      · rfl
      · rw [Option.bind_some, Visit.bind_run]
        cases visit2 s1 with
        | none => rfl
        | some second =>
          rw [Option.bind_some, Visit.bind_run, addEdge_eq, if_pos ht1]
          rfl
    · obtain ⟨t1', hmark, hkind, ht1'⟩ := markOffset_kind offsetText ht1 s1
      rw [hmark, Option.bind_some, Visit.bind_run]
      cases visit2 s1 with
      | none => rfl
      | some second =>
        obtain ⟨t2, s2⟩ := second
        rw [Option.bind_some, Visit.bind_run, addEdge_eq, if_neg ht1', Option.bind_some, Visit.bind_run, addEdge_eq,
          Option.map_some, Option.bind_some]
        by_cases ht2 : t2.label = none
        · rw [if_pos ht2, if_pos (by rw [kindOf_eq_nothing.mpr ht2]; exact List.mem_cons_of_mem _ List.mem_cons_self)]
          rfl
        · have hnothing : ¬ .nothing ∈ [kindOf t1, kindOf t2] := by
            rw [List.mem_pair]
            rintro (h | h)
            · exact ht1 (kindOf_eq_nothing.mp h.symm)
            · exact ht2 (kindOf_eq_nothing.mp h.symm)
          rw [if_neg ht2, if_neg hnothing, Option.bind_some]
          show some (kindOf (.node (some node) [_, _]), kinds s2.definitions) = _
          rw [kindOf_node, List.map_cons, List.map_cons, List.map_nil, kindOf_mapRoot, kindOf_mapRoot, hkind]

/-- A read through updates is strict in each of them. -/
theorem Reckons.updated {updates : List (Visit PyNode)} {reckonedUpdates : List Reckoning} (targetText : String)
    (h : List.Forall₂ (Reckons kindOf) updates reckonedUpdates) :
    Reckons kindOf (visitUpdated baseAddress updates targetText) (returnsUpdated reckonedUpdates) := by
  refine .nodeFirst "version" "" ?_
  have htarget := @Reckons.leafNode baseAddress ("\"target : " ++ targetText ++ "\"") ""
  cases h with
  | nil => exact .cons htarget .nil
  | cons h hall => exact .cons (.nodeFirst "update_list" "" (.cons h hall)) (.cons htarget .nil)

/-- A list of numbers is a tree of nodes. -/
theorem Reckons.numberList : ∀ list : NumberList,
    Reckons kindOf (visitNumberList baseAddress list) (Pure.pure .whole)
  | .single number => .newNode "number_list" "" fun _ => .leafNode number.text ""
  | .cons number rest => by
    have hboth : strictly [Pure.pure .whole, Pure.pure .whole] = Pure.pure .whole := rfl
    rw [visitNumberList, ← hboth]
    exact .newNode "number_list" "" fun _ =>
      .operandsFirst "NumberList" "" (.cons (.leafNode number.text "") (.cons (Reckons.numberList rest) .nil))

/-- A declaration of an array is a tree of nodes. -/
theorem Reckons.arrayDeclaration (name : String) (init : ArrayInitializer) :
    Reckons kindOf (visitArrayDeclaration baseAddress name init) (Pure.pure .whole) := by
  have hone : strictly [Pure.pure .whole] = Pure.pure .whole := rfl
  have hinit : Reckons kindOf (visitArrayInitializer baseAddress init) (Pure.pure .whole) := by
    cases init with
    | symbolic =>
      rw [visitArrayInitializer, ← hone]
      exact .nodeFirst "array_initializer" "" (.cons (.leafNode "symbolic" "") .nil)
    | numbers list =>
      rw [visitArrayInitializer, ← hone]
      exact .nodeFirst "array_initializer" "" (.cons (.numberList list) .nil)
  rw [visitArrayDeclaration, ← hone]
  exact .nodeFirst "array" name (.cons hinit .nil)

mutual

/-- **The visitor does as is reckoned.** -/
theorem visitExpr_returns : ∀ e : KqueryExpr, Reckons kindOf (visitExpr baseAddress e) e.returns
  | .identifier name => by
    rw [visitExpr]
    exact .identifier name
  | .number number => by
    rw [visitExpr, KqueryExpr.returns]
    exact .leafNode number.text ""
  | .definition name e => by
    rw [visitExpr, KqueryExpr.returns]
    exact .definition name.text (visitExpr_returns e)
  | .numberWithType _ _ => by
    rw [visitExpr, KqueryExpr.returns]
    exact .pure kindOf PyNode.none
  | .arrayDeclaration name _ _ _ init => by
    rw [visitExpr, KqueryExpr.returns]
    exact .arrayDeclaration name.text init
  | .arithmetic kind type e1 e2 => by
    rw [visitExpr, KqueryExpr.returns]
    exact .operandsFirst kind.text type (.cons (visitExpr_returns e1) (.cons (visitExpr_returns e2) .nil))
  | .bitwise kind type e1 e2 => by
    rw [visitExpr, KqueryExpr.returns]
    exact .operandsFirst kind.text (type.getD "") (.cons (visitExpr_returns e1) (.cons (visitExpr_returns e2) .nil))
  | .comparison kind type e1 e2 => by
    rw [visitExpr, KqueryExpr.returns]
    exact .nodeFirst kind.text (type.getD "") (.cons (visitExpr_returns e1) (.cons (visitExpr_returns e2) .nil))
  | .bv kind type e1 e2 => by
    rw [visitExpr, KqueryExpr.returns]
    exact .bv kind type (.cons (visitExpr_returns e1) (.cons (visitExpr_returns e2) .nil))
  | .extension kind type e => by
    rw [visitExpr, KqueryExpr.returns]
    exact .operandsFirst kind.text type (.cons (visitExpr_returns e) .nil)
  | .read type e version => by
    rw [visitExpr, KqueryExpr.returns]
    exact .operandsFirst "Read" type (.cons (visitExpr_returns e) (.cons (visitVersion_returns version) .nil))
  | .select type e1 e2 e3 => by
    rw [visitExpr, KqueryExpr.returns]
    exact .nodeFirst "Select" type
      (.cons (visitExpr_returns e1) (.cons (visitExpr_returns e2) (.cons (visitExpr_returns e3) .nil)))
  | .neg type e => by
    rw [visitExpr, KqueryExpr.returns]
    exact .neg type (visitExpr_returns e)
  | .arrayRead kind type e version => by
    rw [visitExpr, KqueryExpr.returns]
    exact .operandsFirst kind.text type (.cons (visitExpr_returns e) (.cons (visitVersion_returns version) .nil))
  | .version updates target => by
    rw [visitExpr, KqueryExpr.returns]
    exact .updated target.text (visitUpdates_returns updates)

/-- The visit of a version does as reckoned, by the mutual recursion of the grammar. -/
theorem visitVersion_returns : ∀ version : KqueryVersion,
    Reckons kindOf (visitVersion baseAddress version) version.returns
  | .updated updates target => by
    rw [visitVersion, KqueryVersion.returns]
    exact .updated target.text (visitUpdates_returns updates)
  | .name name => by
    rw [visitVersion, KqueryVersion.returns]
    exact .leafNode name.text ""
  | .definition _ e => by
    rw [visitVersion, KqueryVersion.returns]
    exact .nodeFirst "version" "" (.cons (visitExpr_returns e) .nil)

/-- So do the visits of a list of updates, one by one. -/
theorem visitUpdates_returns : ∀ updates : KqueryUpdates,
    List.Forall₂ (Reckons kindOf) (visitUpdates baseAddress updates) updates.returns
  | .nil => by
    rw [visitUpdates, KqueryUpdates.returns]
    exact .nil
  | .cons offset value rest => by
    rw [visitUpdates, KqueryUpdates.returns]
    exact .cons (.update offset.text (visitExpr_returns offset) (visitExpr_returns value)) (visitUpdates_returns rest)

end

end

/-- **When a visit raises.** -/
theorem visitExpr_eq_none_iff {baseAddress : List Int} {e : KqueryExpr} :
    visitExpr baseAddress e .fresh = none ↔ e.raises = true := by
  have hrun := @visitExpr_returns baseAddress e .fresh
  rw [KqueryExpr.raises, Option.isNone_iff_eq_none]
  have hfresh : kinds GrapherState.fresh.definitions = fun _ => none := rfl
  rw [← hfresh, ← hrun, Option.map_eq_none_iff]

end Assure
