import Assure.Comparison.KqueryOutline

/-!
# Which expressions the grapher builds

To come out as a tree of all its operators and operands, an expression needs to be buildable
(`buildable_of_shows`): a negation and a number in parentheses are visited to `None`, and where updates
are made to something other than an array by name only its text is kept. With what the visitor builds of
buildable expressions that says exactly which ones it builds (`visitExpr_outline`).

Shown is the text of each operator and operand with its place. Edge labels, types and ids are not
compared here; the ids are the subject of `Assure.Comparison.KqueryOutline` and the rest of
`Assure.Comparison.Sharing`.
-/

namespace Assure

open Assure.Library

section

variable {baseAddress : List Int}

/-! ## What an expression needs -/

variable (baseAddress) in
/-- Several trees. -/
def ShowsAll (ts : List PyNode) (os : List (RoseTree String)) : Prop :=
  ts.map (RoseTree.map (Option.map GraphNode.value)) =
    os.map (RoseTree.map fun token => some (nodeValue baseAddress token))

variable (baseAddress) in
/-- **To show the outline, the visit needs `P`.** -/
def Needs (visit : Visit PyNode) (outline : StateM Outlines (RoseTree String)) (P : Prop) : Prop :=
  ∀ s t s' names, visit s = some (t, s') → Shows baseAddress t (outline names).1 → P

variable (baseAddress) in
/-- The same of visits one after the other. -/
def NeedsAll (visits : List (Visit PyNode)) (outlines : List (StateM Outlines (RoseTree String)))
    (P : Prop) : Prop :=
  ∀ s ts s' names, visitAll visits s = some (ts, s') →
    ShowsAll baseAddress ts (outlineAll outlines names).1 → P

/-- A drawn node shows an outlined one when it has a node of the graph, that node writes the
outlined text, and the operands show each other in order. -/
theorem shows_node {label : Option GraphNode} {ts : List PyNode} {text : String}
    {os : List (RoseTree String)} :
    Shows baseAddress (.node label ts) (.node text os) ↔
      label.map GraphNode.value = some (nodeValue baseAddress text) ∧ ShowsAll baseAddress ts os := by
  rw [Shows, RoseTree.map_node, RoseTree.map_node, RoseTree.node.injEq]
  rfl

/-- Operands show each other position by position, so a list splits at its head. -/
theorem showsAll_cons {t : PyNode} {ts : List PyNode} {o : RoseTree String}
    {os : List (RoseTree String)} :
    ShowsAll baseAddress (t :: ts) (o :: os) ↔
      Shows baseAddress t o ∧ ShowsAll baseAddress ts os := by
  rw [ShowsAll, List.map_cons, List.map_cons, List.cons.injEq]
  rfl

/-- The requirement of one operand and the requirements of the others together are what a list of
operands needs. -/
theorem Needs.consAll {visit : Visit PyNode} {visits : List (Visit PyNode)}
    {outline : StateM Outlines (RoseTree String)}
    {outlines : List (StateM Outlines (RoseTree String))} {P Q : Prop}
    (h : Needs baseAddress visit outline P) (hall : NeedsAll baseAddress visits outlines Q) :
    NeedsAll baseAddress (visit :: visits) (outline :: outlines) (P ∧ Q) := by
  intro s ts s' names hrun hshows
  rw [visitAll, Visit.bind_run] at hrun
  obtain ⟨⟨t, s1⟩, hvisit, hrun⟩ := Option.bind_eq_some_iff.mp hrun
  rw [Visit.bind_run] at hrun
  obtain ⟨⟨ts', s2⟩, hvisits, hrun⟩ := Option.bind_eq_some_iff.mp hrun
  obtain ⟨rfl, rfl⟩ := Prod.mk.inj (Option.some.inj hrun)
  obtain ⟨hone, hrest⟩ := showsAll_cons.mp hshows
  exact ⟨h s t s1 names hvisit hone, hall s1 ts' _ (outline names).2 hvisits hrest⟩

/-- A list of one operand needs what the operand needs. -/
theorem NeedsAll.single {visit : Visit PyNode} {outline : StateM Outlines (RoseTree String)}
    {P : Prop} (h : Needs baseAddress visit outline P) :
    NeedsAll baseAddress [visit] [outline] P := by
  intro s ts s' names hrun hshows
  have hnil : NeedsAll baseAddress [] [] True := fun _ _ _ _ _ _ => trivial
  exact (h.consAll hnil s ts s' names hrun hshows).1

/-- An edge changes no value. -/
theorem addEdge_value {edge : String} {t u : PyNode} {s s' : GrapherState}
    (h : addEdge edge t s = some (u, s')) :
    s' = s ∧ u.map (Option.map GraphNode.value) = t.map (Option.map GraphNode.value) := by
  obtain ⟨_ | node, ts⟩ := t
  · cases h
  · obtain ⟨rfl, rfl⟩ := Prod.mk.inj (Option.some.inj h)
    exact ⟨rfl, by rw [RoseTree.map_node, RoseTree.map_node]; rfl⟩

/-- Where the edges can be added, the node is the root and the operands lie below it with the texts
they had, although the edges themselves may be labelled anew. -/
theorem addEdges_value {node : GraphNode} {ts : List PyNode} {t : PyNode} {s s' : GrapherState}
    (h : addEdges node ts s = some (t, s')) :
    ∃ us, t = .node (some node) us ∧
      us.map (RoseTree.map (Option.map GraphNode.value)) =
        ts.map (RoseTree.map (Option.map GraphNode.value)) := by
  have hmapM : ∀ (ts us : List PyNode) (s s' : GrapherState),
      ts.mapM (addEdge "") s = some (us, s') →
        us.map (RoseTree.map (Option.map GraphNode.value)) =
          ts.map (RoseTree.map (Option.map GraphNode.value)) := by
    intro ts
    induction ts with
    | nil =>
      intro us s s' h
      obtain ⟨rfl, rfl⟩ := Prod.mk.inj (Option.some.inj h)
      rfl
    | cons t ts ih =>
      intro us s s' h
      rw [List.mapM_cons, Visit.bind_run] at h
      obtain ⟨⟨u, s1⟩, hone, h⟩ := Option.bind_eq_some_iff.mp h
      rw [Visit.bind_run] at h
      obtain ⟨⟨us', s2⟩, hrest, h⟩ := Option.bind_eq_some_iff.mp h
      obtain ⟨rfl, rfl⟩ := Prod.mk.inj (Option.some.inj h)
      rw [List.map_cons, List.map_cons, (addEdge_value hone).2, ih us' s1 s2 hrest]
  rw [addEdges, Visit.bind_run] at h
  obtain ⟨⟨us, s1⟩, hus, h⟩ := Option.bind_eq_some_iff.mp h
  obtain ⟨rfl, rfl⟩ := Prod.mk.inj (Option.some.inj h)
  exact ⟨us, rfl, hmapM ts us s _ hus⟩

/-- What the children need the node needs. -/
theorem NeedsAll.node {visits : List (Visit PyNode)}
    {outlines : List (StateM Outlines (RoseTree String))} {P : Prop}
    (h : NeedsAll baseAddress visits outlines P) {s s1 s2 s3 : GrapherState}
    {node : GraphNode} {ts : List PyNode} {t : PyNode} {text : String} {names : Outlines}
    (hvisits : visitAll visits s = some (ts, s1)) (hedges : addEdges node ts s2 = some (t, s3))
    (hshows : Shows baseAddress t (operator text outlines names).1) : P := by
  obtain ⟨us, rfl, hvalues⟩ := addEdges_value hedges
  have hall : ShowsAll baseAddress us (outlineAll outlines names).1 := (shows_node.mp hshows).2
  rw [ShowsAll, hvalues] at hall
  exact h s ts s1 names hvisits hall

/-- An operator whose operands are visited before its own node is made needs what the operands need
and nothing more. -/
theorem Needs.operandsFirst {visits : List (Visit PyNode)}
    {outlines : List (StateM Outlines (RoseTree String))} {P : Prop} {value type : String}
    (h : NeedsAll baseAddress visits outlines P) :
    Needs baseAddress (operandsFirst baseAddress value type visits) (operator value outlines) P := by
  intro s t s' names hrun hshows
  rw [Assure.operandsFirst, Visit.bind_run] at hrun
  obtain ⟨⟨ts, s1⟩, hvisits, hrun⟩ := Option.bind_eq_some_iff.mp hrun
  rw [Visit.bind_run, newNode_run, Option.bind_some] at hrun
  exact h.node hvisits hrun hshows

/-- The same for an operator whose node is made before its operands are visited; the order changes
the numbers of the nodes and not what is drawn. -/
theorem Needs.nodeFirst {visits : List (Visit PyNode)}
    {outlines : List (StateM Outlines (RoseTree String))} {P : Prop} {value type : String}
    (h : NeedsAll baseAddress visits outlines P) :
    Needs baseAddress (nodeFirst baseAddress value type visits) (operator value outlines) P := by
  intro s t s' names hrun hshows
  rw [Assure.nodeFirst, Visit.bind_run, newNode_run, Option.bind_some, Visit.bind_run] at hrun
  obtain ⟨⟨ts, s1⟩, hvisits, hrun⟩ := Option.bind_eq_some_iff.mp hrun
  exact h.node hvisits hrun hshows

/-- Without the check for `None` the children are all the same compared with the operands. -/
theorem Needs.bv {kind : BvKind} {type : Option String} {visit1 visit2 : Visit PyNode}
    {outlines : List (StateM Outlines (RoseTree String))} {P : Prop}
    (h : NeedsAll baseAddress [visit1, visit2] outlines P) :
    Needs baseAddress (visitBvExpr baseAddress kind type visit1 visit2)
      (operator kind.text outlines) P := by
  cases type with
  | none => exact Needs.nodeFirst h
  | some type =>
    intro s t s' names hrun hshows
    rw [visitBvExpr, Visit.bind_run, newNode_run, Option.bind_some, Visit.bind_run] at hrun
    obtain ⟨⟨ts, s1⟩, hvisits, hrun⟩ := Option.bind_eq_some_iff.mp hrun
    obtain ⟨rfl, rfl⟩ := Prod.mk.inj (Option.some.inj hrun)
    exact h _ ts _ names hvisits (shows_node.mp hshows).2

/-- `None` shows no outline. -/
theorem not_shows_none (o : RoseTree String) : ¬ Shows baseAddress PyNode.none o := by
  obtain ⟨text, os⟩ := o
  intro h
  cases (shows_node.mp h).1

/-- A visit that gives no tree shows no outline, so it needs what cannot be had. -/
theorem Needs.none (outline : StateM Outlines (RoseTree String)) :
    Needs baseAddress (pure PyNode.none) outline False := by
  intro s t s' names hrun hshows
  obtain ⟨rfl, rfl⟩ := Prod.mk.inj (Option.some.inj hrun)
  exact not_shows_none _ hshows

/-- A negation gives no tree at all, so nothing that contains one is drawn as its outline. -/
theorem Needs.neg (type : Option String) (visit : Visit PyNode)
    (outline : StateM Outlines (RoseTree String)) :
    Needs baseAddress (visitNegExpr baseAddress type visit) outline False := by
  intro s t s' names hrun hshows
  rw [visitNegExpr, Visit.bind_run] at hrun
  obtain ⟨⟨node, s1⟩, -, hrun⟩ := Option.bind_eq_some_iff.mp hrun
  exact Needs.none outline s1 t s' names hrun hshows

/-- Giving a name to an expression needs what the expression needs, since the tree is handed on as
it is. -/
theorem Needs.definition {visit : Visit PyNode} {outline : StateM Outlines (RoseTree String)}
    {P : Prop} (h : Needs baseAddress visit outline P) (name : String) :
    Needs baseAddress (visitDefinition name visit)
      (do
        let o ← outline
        modify fun names => Function.update names name o
        return o) P := by
  intro s t s' names hrun hshows
  rw [visitDefinition, Visit.bind_run] at hrun
  obtain ⟨⟨u, s1⟩, hvisit, hrun⟩ := Option.bind_eq_some_iff.mp hrun
  obtain ⟨rfl, -⟩ := Prod.mk.inj (Option.some.inj hrun)
  exact h s u s1 names hvisit hshows

/-- Marking an offset sets a field of the node which no text shows and makes no new node. -/
theorem markOffset_value {offsetText : String} {t u : PyNode} {s s' : GrapherState}
    (h : markOffset offsetText t s = some (u, s')) :
    s' = s ∧ u.map (Option.map GraphNode.value) = t.map (Option.map GraphNode.value) := by
  unfold markOffset at h
  split at h
  · obtain ⟨_ | node, ts⟩ := t
    · cases h
    · obtain ⟨rfl, rfl⟩ := Prod.mk.inj (Option.some.inj h)
      exact ⟨rfl, by rw [RoseTree.map_node, RoseTree.map_node]; rfl⟩
  · obtain ⟨rfl, rfl⟩ := Prod.mk.inj (Option.some.inj h)
    exact ⟨rfl, rfl⟩

/-- An update in a list needs what its offset and its value need. -/
theorem Needs.update (offsetText : String) {visitOffset visitValue : Visit PyNode}
    {offset value : StateM Outlines (RoseTree String)} {P Q : Prop}
    (hoffset : Needs baseAddress visitOffset offset P)
    (hvalue : Needs baseAddress visitValue value Q) :
    Needs baseAddress (visitUpdate baseAddress offsetText visitOffset visitValue)
      (operator "update_list_sub_node" [offset, value]) (P ∧ Q) := by
  intro s t s' names hrun hshows
  rw [visitUpdate, Visit.bind_run, newNode_run, Option.bind_some, Visit.bind_run] at hrun
  obtain ⟨⟨t1, s1⟩, hlhs, hrun⟩ := Option.bind_eq_some_iff.mp hrun
  rw [Visit.bind_run] at hrun
  obtain ⟨⟨t1', s2⟩, hmark, hrun⟩ := Option.bind_eq_some_iff.mp hrun
  rw [Visit.bind_run] at hrun
  obtain ⟨⟨t2, s3⟩, hrhs, hrun⟩ := Option.bind_eq_some_iff.mp hrun
  rw [Visit.bind_run] at hrun
  obtain ⟨⟨t1'', s4⟩, hedge1, hrun⟩ := Option.bind_eq_some_iff.mp hrun
  rw [Visit.bind_run] at hrun
  obtain ⟨⟨t2', s5⟩, hedge2, hrun⟩ := Option.bind_eq_some_iff.mp hrun
  obtain ⟨rfl, rfl⟩ := Prod.mk.inj (Option.some.inj hrun)
  have hchildren := showsAll_cons.mp (shows_node.mp hshows).2
  refine ⟨hoffset _ t1 s1 names hlhs ?_, hvalue _ t2 s3 (offset names).2 hrhs ?_⟩
  · rw [Shows, ← (markOffset_value hmark).2, ← (addEdge_value hedge1).2]
    exact hchildren.1
  · rw [Shows, ← (addEdge_value hedge2).2]
    exact (showsAll_cons.mp hchildren.2).1

/-- A leaf shows what is updated only if that is a name. -/
theorem Needs.target (target : KqueryVersion) (value type : String) :
    Needs baseAddress (leafNode baseAddress value type) target.targetOutline
      (target.isName = true) := by
  intro s t s' names hrun hshows
  obtain ⟨rfl, -⟩ := Prod.mk.inj (Option.some.inj hrun)
  cases target with
  | name name => rfl
  | updated updates target =>
    rw [KqueryVersion.targetOutline, outlineUpdated] at hshows
    split at hshows
    · cases congrArg List.length (shows_node.mp hshows).2
    · cases congrArg List.length (shows_node.mp hshows).2
  | definition name e =>
    rw [KqueryVersion.targetOutline] at hshows
    cases congrArg List.length (shows_node.mp hshows).2

/-- Where no update is visited there is none in the list, and the empty list is drawn. -/
theorem buildable_of_isEmpty (updates : KqueryUpdates)
    (h : (visitUpdates baseAddress updates).isEmpty = true) : updates.buildable = true := by
  cases updates with
  | nil => rw [KqueryUpdates.buildable]
  | cons offset value rest =>
    rw [visitUpdates] at h
    cases h

/-- A read through a list of updates needs what the updates need and, besides, that the list ends at
the name of an array. -/
theorem Needs.updated {updates : List (Visit PyNode)}
    {outlines : List (StateM Outlines (RoseTree String))} (target : KqueryVersion) {P : Prop}
    (hempty : updates.isEmpty = outlines.isEmpty) (hnil : updates.isEmpty = true → P)
    (h : NeedsAll baseAddress updates outlines P) :
    Needs baseAddress (visitUpdated baseAddress updates target.text)
      (outlineUpdated outlines target.targetOutline) (P ∧ target.isName = true) := by
  have htarget : Needs baseAddress _ _ _ :=
    Needs.target target ("\"target : " ++ target.text ++ "\"") ""
  have hall : NeedsAll baseAddress
      ((if updates.isEmpty then [] else [Assure.nodeFirst baseAddress "update_list" "" updates]) ++
        [Assure.leafNode baseAddress ("\"target : " ++ target.text ++ "\"") ""])
      ((if outlines.isEmpty then [] else [operator "update_list" outlines]) ++
        [target.targetOutline]) (P ∧ target.isName = true) := by
    rw [← hempty]
    split
    · rename_i hyes
      intro s ts s' names hrun hshows
      exact ⟨hnil hyes, NeedsAll.single htarget s ts s' names hrun hshows⟩
    · exact (Needs.nodeFirst h).consAll (.single htarget)
  exact Needs.nodeFirst hall

mutual

/-- **What showing the outline needs**: a buildable expression. -/
theorem buildable_of_shows : ∀ e : KqueryExpr,
    Needs baseAddress (visitExpr baseAddress e) e.outline (e.buildable = true)
  | .identifier _ => fun _ _ _ _ _ _ => by rw [KqueryExpr.buildable]
  | .number _ => fun _ _ _ _ _ _ => by rw [KqueryExpr.buildable]
  | .definition name e => by
    rw [visitExpr, KqueryExpr.outline, KqueryExpr.buildable]
    exact (buildable_of_shows e).definition name.text
  | .numberWithType type number => by
    rw [visitExpr]
    intro s t s' names hrun hshows
    exact (Needs.none _ s t s' names hrun hshows).elim
  | .arrayDeclaration .. => fun _ _ _ _ _ _ => by rw [KqueryExpr.buildable]
  | .arithmetic kind type e1 e2 => by
    rw [visitExpr, KqueryExpr.outline, KqueryExpr.buildable, Bool.and_eq_true]
    exact Needs.operandsFirst ((buildable_of_shows e1).consAll (.single (buildable_of_shows e2)))
  | .bitwise kind type e1 e2 => by
    rw [visitExpr, KqueryExpr.outline, KqueryExpr.buildable, Bool.and_eq_true]
    exact Needs.operandsFirst ((buildable_of_shows e1).consAll (.single (buildable_of_shows e2)))
  | .comparison kind type e1 e2 => by
    rw [visitExpr, KqueryExpr.outline, KqueryExpr.buildable, Bool.and_eq_true]
    exact Needs.nodeFirst ((buildable_of_shows e1).consAll (.single (buildable_of_shows e2)))
  | .bv kind type e1 e2 => by
    rw [visitExpr, KqueryExpr.outline, KqueryExpr.buildable, Bool.and_eq_true]
    exact Needs.bv ((buildable_of_shows e1).consAll (.single (buildable_of_shows e2)))
  | .extension kind type e => by
    rw [visitExpr, KqueryExpr.outline, KqueryExpr.buildable]
    exact Needs.operandsFirst (.single (buildable_of_shows e))
  | .read type e version => by
    rw [visitExpr, KqueryExpr.outline, KqueryExpr.buildable, Bool.and_eq_true]
    exact Needs.operandsFirst
      ((buildable_of_shows e).consAll (.single (version_buildable_of_shows version)))
  | .select type e1 e2 e3 => by
    rw [visitExpr, KqueryExpr.outline, KqueryExpr.buildable, Bool.and_eq_true, Bool.and_eq_true]
    exact Needs.nodeFirst ((buildable_of_shows e1).consAll
      ((buildable_of_shows e2).consAll (.single (buildable_of_shows e3))))
  | .neg type e => by
    rw [visitExpr]
    intro s t s' names hrun hshows
    exact (Needs.neg type _ _ s t s' names hrun hshows).elim
  | .arrayRead kind type e version => by
    rw [visitExpr, KqueryExpr.outline, KqueryExpr.buildable, Bool.and_eq_true]
    exact Needs.operandsFirst
      ((buildable_of_shows e).consAll (.single (version_buildable_of_shows version)))
  | .version updates target => by
    rw [visitExpr, KqueryExpr.outline, KqueryExpr.buildable, Bool.and_eq_true]
    exact Needs.updated target (visitUpdates_isEmpty updates) (buildable_of_isEmpty updates)
      (updates_buildable_of_shows updates)

/-- Whatever version of an array is drawn as its outline lies in the part of the grammar that the
visitor draws. -/
theorem version_buildable_of_shows : ∀ version : KqueryVersion,
    Needs baseAddress (visitVersion baseAddress version) version.outline (version.buildable = true)
  | .updated updates target => by
    rw [visitVersion, KqueryVersion.outline, KqueryVersion.buildable, Bool.and_eq_true]
    exact Needs.updated target (visitUpdates_isEmpty updates) (buildable_of_isEmpty updates)
      (updates_buildable_of_shows updates)
  | .name _ => fun _ _ _ _ _ _ => by rw [KqueryVersion.buildable]
  | .definition name e => by
    rw [visitVersion, KqueryVersion.outline, KqueryVersion.buildable]
    exact Needs.nodeFirst (.single (buildable_of_shows e))

/-- The same for a list of updates, by the mutual recursion of the two. -/
theorem updates_buildable_of_shows : ∀ updates : KqueryUpdates,
    NeedsAll baseAddress (visitUpdates baseAddress updates) updates.outlines
      (updates.buildable = true)
  | .nil => fun _ _ _ _ _ _ => by rw [KqueryUpdates.buildable]
  | .cons offset value rest => by
    rw [visitUpdates, KqueryUpdates.outlines, KqueryUpdates.buildable, Bool.and_eq_true,
      Bool.and_eq_true, ← and_assoc]
    exact (Needs.update offset.text (buildable_of_shows offset)
      (buildable_of_shows value)).consAll (updates_buildable_of_shows rest)

end

end

/-- **What the grapher builds.** The visitor returns a node with one node under it for each operator and
operand, all with different numbers, exactly for the expressions without a negation and without a number
in parentheses whose updates are made to arrays by name. -/
theorem visitExpr_outline (baseAddress : List Int) (e : KqueryExpr) :
    (∃ t s', visitExpr baseAddress e .fresh = some (t, s') ∧
      Shows baseAddress t (e.outline fun _ => none).1 ∧
        (t.labels.map (Option.map GraphNode.nodeId)).Nodup) ↔
      e.buildable = true := by
  constructor
  · rintro ⟨t, s', hrun, hshows, -⟩
    exact buildable_of_shows e _ t s' _ hrun hshows
  · intro h
    obtain ⟨u, s', hrun, -, hnum, hbuilt, -⟩ :=
      (visitExpr_builds e h : Builds baseAddress _ _) .fresh (fun _ => none) fun _ => .none
    refine ⟨u.map some, s', hrun, ?_, ?_⟩
    · have hvalues := congrArg (RoseTree.map some) hbuilt.values
      rw [RoseTree.map_map, RoseTree.map_map] at hvalues
      rw [Shows, RoseTree.map_map]
      exact hvalues
    · rw [RoseTree.labels_map, List.map_map]
      have hnodup := hnum.nodup.map fun _ _ => Option.some.inj
      rwa [List.map_map] at hnodup

/-- A negation comes back as `None`, a number in parentheses makes its parent raise, and of updated
updates only the text is left. -/
theorem visitExpr_outline_unbuilt :
    let zero : KqueryExpr := .number .zero
    let a : KqueryVersion := .name ⟨"a", by decide +kernel⟩
    ∀ e ∈ [KqueryExpr.neg (some "w32") (.arrayRead .readLSB "w32" zero a),
      .arithmetic .add "w32" (.numberWithType "w32" ⟨"1", by decide +kernel⟩) zero,
      .version (.cons zero zero .nil) (.updated (.cons zero zero .nil) a)],
      ¬ ∃ t s', visitExpr [] e .fresh = some (t, s') ∧ Shows [] t (e.outline fun _ => none).1 ∧
        (t.labels.map (Option.map GraphNode.nodeId)).Nodup := by
  intro zero a e he hbuilt
  obtain ⟨t, s', hrun, hshows, -⟩ := hbuilt
  have hbuildable := buildable_of_shows e _ t s' _ hrun hshows
  simp only [List.mem_cons, List.not_mem_nil, or_false] at he
  rcases he with rfl | rfl | rfl <;> exact absurd hbuildable (by decide)

end Assure
