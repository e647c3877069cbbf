import Assure.Comparison.KqueryOutline
import Assure.Comparison.OffsetLabels
import Assure.Comparison.Relabel
import Assure.Comparison.UpdateOffsets
import Assure.Library.TreeGraph

/-!
# From the visit to the graphs that are written

`convert_kquery_to_graph` writes the fields of arguments into the graph of a visit (`post_process_offset_node`),
simplifies the graph by six functions, one after the other, and writes it, or the graphs of the values that were
stored at an address. The graph of a visit is a forest, so none of the six raises if the updates in it are ready
(`postProcess_spec`).

The search for the stored values comes last. It raises for an address that has lost its sibling. Apart from that
only the first step raises, and otherwise what is written are copies of what is below the values, one for each of
them and in their order, or the graph if there is none (`writtenGraphs_spec`). The names of the files and their
texts are left out.
-/

namespace Assure

open Assure.Library Assure.Library.OrderedGraph

/-! ## The code -/

/-- The six functions, and whether an address was put in the place of an offset. -/
def postProcess : Pass := fun G => do
  let (G, removedOffset) ← simplifyUpdateList G
  let (G, _) ← processGraph G
  let (G, _) ← processGraphZExt G
  let (G, _) ← processGraphSub G
  let (G, _) ← processExtractWithSingleNodeSubtree G
  let (G, _) ← processRootZextEqOnly G
  return (G, removedOffset)

def findTargetOffsetNode (G : KqueryGraph) (root : Nat) (targetOffset : String) : Option Nat :=
  (dfsPreorderNodes G root).find? fun n => isKleeOffset G n && G.label n == some targetOffset

/-- The value that one update stores at the address; it raises for an address without siblings. -/
def targetValueNode (G : KqueryGraph) (targetOffset : String) (child : Nat) : Option (List Nat) :=
  match findTargetOffsetNode G child targetOffset with
  | none => some []
  | some n =>
    if n = 0 then some []
    else
      match getSiblings G n with
      | [] => none
      | sibling :: _ => some [sibling]

/-- The updates of all lists. -/
def updatesOf (G : KqueryGraph) : List Nat :=
  (G.nodes.keys.filter fun upd => G.label upd == some "update_list").flatMap G.successors

def findTargetValueNode (G : KqueryGraph) (targetOffset : String) : Option (List Nat) :=
  ((updatesOf G).mapM (targetValueNode G targetOffset)).map List.flatten

/-- `re.search(r'field_(\d+)(?!.*field_)', s)` and its number. -/
def getLastFieldNumber (s : String) : Option Nat :=
  s.toList.tails.findSome? fun text => do
    let rest ← text.dropPrefix? "field_".toList
    let digits := rest.takeWhile Char.isDigit
    guard (digits ≠ [])
    guard (¬ "field_".toList <:+: (rest.dropWhile Char.isDigit).takeWhile (· ≠ '\n'))
    return Nat.ofDigitChars 10 digits 0

/-- The offset that the key asks for. -/
def targetOffset (key : String) (offsetMap : Dict String String) : Option String :=
  ((getLastFieldNumber key).bind fun field => offsetMap.get? (toString field)).filter (· ≠ "")

/-- No nodes, or `None`, where there is no such offset. -/
def fetchValue (key : String) (offsetMap : Dict String String) (G : KqueryGraph) : Option (List Nat) :=
  match targetOffset key offsetMap with
  | none => some []
  | some offset => findTargetValueNode G offset

/-- The graph, or copies of what is below the values. -/
def graphsOf (fuel : Nat) (G : KqueryGraph) : List Nat → Option (List KqueryGraph)
  | [] => some [G]
  | nodes => nodes.mapM (extractAndRelabelSubtree G fuel)

/-- **What is written** for an expression, whose visit has given the graph. -/
def writtenGraphs (fuel : Nat) (key : String) (offsetMap : Dict String String) (G : KqueryGraph) :
    Option (List KqueryGraph) := do
  let G ← postProcessOffsetNode offsetMap G
  let (G, removedOffset) ← postProcess G
  if removedOffset then (fetchValue key offsetMap G).bind (graphsOf fuel G) else some [G]

/-! ## The graph of a visit -/

/-- The attributes of a node, those that are not empty. -/
def GraphNode.attributes (node : GraphNode) : NodeAttributes where
  label := if node.value = "" then none else some node.value
  type := if node.type = "" then none else some node.type

/-- **The graph of a visit**: its nodes are there with their types, and edges lead to their children. Their labels
are left open, since fields of arguments may have been written for some of them. Nodes that the visit has made and
left without a parent are there without edges. -/
structure IsVisitGraph (G : KqueryGraph) (u : RoseTree GraphNode) : Prop where
  nodes : ∀ node ∈ u.labels, node.nodeId ∈ G ∧ G.type node.nodeId = node.attributes.type
  edge : ∀ {x y}, G.Edge x y ↔
    ∃ s ∈ u.subtrees, ∃ c ∈ s.children, s.label.nodeId = x ∧ c.label.nodeId = y

section IsVisitGraph

variable {G : KqueryGraph} {u : RoseTree GraphNode} {first : GraphNode → Prop} {lo hi : Nat}

/-- **The graph of a visit is a forest and laid out.** -/
theorem IsVisitGraph.isForest_laid (h : IsVisitGraph G u) (hnum : u.Numbered GraphNode.nodeId first lo hi) :
    G.IsForest ∧ G.Laid := by
  let G₀ : KqueryGraph := u.toGraph GraphNode.nodeId GraphNode.attributes (fun _ => none) hnum.nodup
  have hedge : ∀ {x y}, G.Edge x y ↔ G₀.Edge x y := by
    intro x y
    rw [h.edge, RoseTree.edge_toGraph]
  have hbelow : ∀ {x y}, G.Below x y → G₀.Below x y := Below.mono hedge.mp
  have hforest : G₀.IsForest := RoseTree.isForest_toGraph
  have hlaid : G₀.Laid := hnum.laid_toGraph GraphNode.attributes fun _ => none
  refine ⟨⟨fun hx hy => hforest.parent (hedge.mp hx) (hedge.mp hy), ?_⟩, ?_⟩
  · obtain ⟨rank, hrank⟩ := hforest.acyclic
    exact ⟨rank, fun hxy => hrank (hedge.mp hxy)⟩
  · intro p a b x y hpa hpb hlt hax hby
    exact hlaid (hedge.mp hpa) (hedge.mp hpb) hlt (hbelow hax) (hbelow hby)

/-- Every tree with numbers has a graph. -/
theorem isVisitGraph_toGraph (hids : (u.labels.map GraphNode.nodeId).Nodup) (edge : GraphNode → Option String) :
    IsVisitGraph (u.toGraph GraphNode.nodeId GraphNode.attributes edge hids) u where
  nodes := by
    intro node hnode
    have hentry : (u.toGraph GraphNode.nodeId GraphNode.attributes edge hids).nodes.get? node.nodeId =
        some node.attributes := by
      rw [Dict.get?_eq_some_iff]
      exact List.mem_map.mpr ⟨node, mem_sortedBy.mpr hnode, rfl⟩
    constructor
    · rw [mem_iff]
      by_contra hnot
      rw [(Dict.get?_eq_none_iff _ _).mpr hnot] at hentry
      cases hentry
    · rw [KqueryGraph.type, hentry]
      rfl
  edge := RoseTree.edge_toGraph

/-- The graph is one still when fields of arguments have been written into it. -/
theorem Relabelled.isVisitGraph {offsetMap : Dict String String} {G' : KqueryGraph} {seen : List Nat}
    (h : Relabelled offsetMap G' G seen) (hvisited : IsVisitGraph G u) : IsVisitGraph G' u where
  nodes node hnode := by
    rw [mem_iff, h.keys, h.type]
    exact hvisited.nodes node hnode
  edge := h.edge_iff.trans hvisited.edge

end IsVisitGraph

/-- `(Read w8 0 [(Add w64 5 18446744073709551000)=v] @ m)` -/
def updateExpr : KqueryExpr :=
  .read "w8" (.number .zero) (.updated (.cons
    (.arithmetic .add "w64" (.number ⟨"5", by decide +kernel⟩) (.number ⟨"18446744073709551000", by decide +kernel⟩))
    (.identifier ⟨"v", by decide +kernel⟩) .nil) (.name ⟨"m", by decide +kernel⟩))

/-- What the visitor builds of it. -/
def updateTree : RoseTree GraphNode :=
  .node ⟨10, "Read", "w8", "w8", ""⟩ [
    .node ⟨1, "0", "", "", ""⟩ [],
    .node ⟨2, "version", "", "", ""⟩ [
      .node ⟨3, "update_list", "", "", ""⟩ [
        .node ⟨4, "update_list_sub_node", "", "", ""⟩ [
          .node ⟨7, "Add", "w64", "w64", "offset"⟩ [
            .node ⟨5, "5", "", "", ""⟩ [],
            .node ⟨6, "8", "normal_klee_offset", "normal_klee_offset", ""⟩ []],
          .node ⟨8, "v", "", "", "value"⟩ []]],
      .node ⟨9, "\"target : m\"", "", "", ""⟩ []]]

def updateGraph : KqueryGraph :=
  updateTree.toGraph GraphNode.nodeId GraphNode.attributes (fun node => some node.edge) (by decide)

/-- What the visitor builds of `(Sub w64 (ReadLSB w64 (Extract w32 0 (Mul w64 c d)) a) b)`. -/
def readTree : RoseTree GraphNode :=
  .node ⟨9, "Sub", "w64", "w64", ""⟩ [
    .node ⟨7, "ReadLSB", "w64", "w64", ""⟩ [
      .node ⟨1, "Extract", "w32", "w32", ""⟩ [
        .node ⟨2, "0", "", "", ""⟩ [],
        .node ⟨5, "Mul", "w64", "w64", ""⟩ [.node ⟨3, "c", "", "", ""⟩ [], .node ⟨4, "d", "", "", ""⟩ []]],
      .node ⟨6, "a", "", "", ""⟩ []],
    .node ⟨8, "b", "", "", ""⟩ []]

def readGraph : KqueryGraph :=
  readTree.toGraph GraphNode.nodeId GraphNode.attributes (fun node => some node.edge) (by decide)

/-! ## The passes one after the other -/

section Passes

variable {G : KqueryGraph}

/-- **A pass that keeps forests**: it raises nothing, and nothing comes below anything. -/
def KeepsForests (pass : Pass) : Prop :=
  ∀ G : KqueryGraph, G.IsForest → ∃ s, pass G = some s ∧ s.1.IsForest ∧ Prunes s.1 G

/-- The first pass keeps forests, since what it does is one promotion. -/
theorem keepsForests_processGraph : KeepsForests processGraph := by
  intro G hG
  obtain ⟨G', changed, hpass, hsame, hchanged⟩ := processGraph_eq hG
  refine ⟨_, hpass, ?_⟩
  cases changed with
  | false =>
    obtain rfl := (hsame rfl).1
    exact ⟨hG, .refl _⟩
  | true =>
    obtain ⟨node, e32Node, w64Child, hnode, hread, hP⟩ := hchanged rfl
    obtain ⟨-, -, -, ⟨hne, -⟩, hew, -⟩ := readOfExtract_eq_some hread
    have hbelow : G.Below node w64Child := (Below.of_edge hne).trans (.of_edge hew)
    have hdistinct : node ≠ w64Child := by
      rintro rfl
      exact hG.not_below_of_edge hne (.of_edge hew)
    exact ⟨hP.isForest hG hnode hbelow hdistinct, hP.prunes hG hnode hbelow⟩

/-- The second pass keeps forests. -/
theorem keepsForests_processExtract : KeepsForests processExtractWithSingleNodeSubtree := by
  intro G hG
  obtain ⟨G', changed, hpass, hsame, hchanged⟩ := processExtractWithSingleNodeSubtree_eq hG
  refine ⟨_, hpass, ?_⟩
  cases changed with
  | false =>
    obtain rfl := (hsame rfl).1
    exact ⟨hG, .refl _⟩
  | true =>
    obtain ⟨node, singleSubtree, keepChild, hnode, hleaf, hP⟩ := hchanged rfl
    obtain ⟨-, -, -, hkeep, -⟩ := extractWithLeaf_eq_some hleaf
    exact ⟨hP.isForest hG hnode (.of_edge hkeep) (hG.ne_of_edge hkeep), hP.prunes hG hnode (.of_edge hkeep)⟩

/-- The third pass keeps forests, whichever of its two rewritings it makes. -/
theorem keepsForests_processGraphZExt : KeepsForests processGraphZExt := by
  intro G hG
  obtain ⟨G', changed, hpass, hforest, hprunes, -⟩ := processGraphZExt_eq hG
  exact ⟨_, hpass, hforest, hprunes⟩

/-- The fourth pass keeps forests; taking away the other operands takes whole trees away. -/
theorem keepsForests_processGraphSub : KeepsForests processGraphSub := by
  intro G hG
  obtain ⟨G', changed, hpass, hforest, hprunes, -⟩ := processGraphSub_eq hG
  exact ⟨_, hpass, hforest, hprunes⟩

/-- The last pass keeps forests. -/
theorem keepsForests_processRootZextEqOnly : KeepsForests processRootZextEqOnly := by
  intro G hG
  obtain ⟨G', changed, hpass, hforest, hprunes, -⟩ := processRootZextEqOnly_eq hG
  exact ⟨_, hpass, hforest, hprunes⟩

/-- **A subtree in the place of a larger one**: what is left is below one another as it was, and the operands of
each node are those it had, in their order. -/
structure PutInPlace (G' G : KqueryGraph) (n m : Nat) : Prop where
  restricts : Restricts G' G fun x => G.Below n x → G.Below m x
  operands : ∀ {q}, q ∈ G' → G'.operands q = (G.operands q).map fun c => if c = n then m else c

/-- Putting a node in the place of another above it, which is how every pass changes the graph, seen
from the nodes that stay. -/
theorem putInPlace_of_promotes {G' : KqueryGraph} {n m : Nat} (hG : G.IsForest) (hL : G.Laid) (hn : n ∈ G)
    (hnm : G.Below n m) (hne : n ≠ m) (h : Promotes G' G n m) : PutInPlace G' G n m :=
  ⟨h.restricts hG hn hnm, fun hq => h.operands_of_mem hG hL hn hnm hne hq⟩

/-- **`process_graph`** raises nothing on a forest. It takes the first `ReadLSB w64` with an operand
`Extract w32` of a value of type `w64`, below the root, and puts that value in its place. -/
theorem processGraph_spec (hG : G.IsForest) (hL : G.Laid) : ∃ G' changed,
    processGraph G = some (G', changed) ∧ G'.IsForest ∧ G'.Laid ∧
      (changed = false → G' = G ∧ ∀ n ∈ G, readOfExtract G n = none) ∧
      (changed = true → ∃ node e32Node w64Child, readOfExtract G node = some (node, e32Node, w64Child) ∧
        isReadlsbW64 G node = true ∧ G.Edge node e32Node ∧ isExtractW32 G e32Node = true ∧
        G.Edge e32Node w64Child ∧ isTypeW64 G w64Child = true ∧ PutInPlace G' G node w64Child) := by
  obtain ⟨G', changed, hpass, hsame, hchanged⟩ := processGraph_eq hG
  cases changed with
  | false =>
    obtain rfl := (hsame rfl).1
    exact ⟨G', false, hpass, hG, hL, hsame, fun h => nomatch h⟩
  | true =>
    obtain ⟨node, e32Node, w64Child, hnode, hread, hP⟩ := hchanged rfl
    obtain ⟨-, -, hread', ⟨hne, hextract⟩, hew, htype⟩ := readOfExtract_eq_some hread
    have hbelow : G.Below node w64Child := (Below.of_edge hne).trans (.of_edge hew)
    have hdistinct : node ≠ w64Child := by
      rintro rfl
      exact hG.not_below_of_edge hne (.of_edge hew)
    have hforest := hP.isForest hG hnode hbelow hdistinct
    refine ⟨G', true, hpass, hforest, (hP.prunes hG hnode hbelow).laid hforest hL, fun h => (nomatch h),
      fun _ => ⟨node, e32Node, w64Child, hread, hread', hne, hextract, hew, htype, ?_⟩⟩
    exact putInPlace_of_promotes hG hL hnode hbelow hdistinct hP

/-- The theorem on the first pass at a graph that has a read of an extract. -/
theorem processGraph_readGraph : ∃ G' changed, processGraph readGraph = some (G', changed) ∧ G'.IsForest ∧ G'.Laid := by
  obtain ⟨G', changed, h, hforest, hlaid, -⟩ := processGraph_spec (G := readGraph) RoseTree.isForest_toGraph
    (by decide +kernel)
  exact ⟨G', changed, h, hforest, hlaid⟩

/-- **`process_extract_with_single_node_subtree`** raises nothing on a forest. It takes the first `Extract`
without a type that has two operands, one of them a leaf, and puts the other one in its place. -/
theorem processExtractWithSingleNodeSubtree_spec (hG : G.IsForest) (hL : G.Laid) : ∃ G' changed,
    processExtractWithSingleNodeSubtree G = some (G', changed) ∧ G'.IsForest ∧ G'.Laid ∧
      (changed = false → G' = G ∧ ∀ n ∈ G, extractWithLeaf G n = none) ∧
      (changed = true → ∃ node singleSubtree keepChild,
        extractWithLeaf G node = some (node, singleSubtree, keepChild) ∧
        isEmptyTypeExtractNode G node = true ∧ G.Edge node singleSubtree ∧
        G.successors singleSubtree = [] ∧ G.Edge node keepChild ∧ PutInPlace G' G node keepChild) := by
  obtain ⟨G', changed, hpass, hsame, hchanged⟩ := processExtractWithSingleNodeSubtree_eq hG
  cases changed with
  | false =>
    obtain rfl := (hsame rfl).1
    exact ⟨G', false, hpass, hG, hL, hsame, fun h => nomatch h⟩
  | true =>
    obtain ⟨node, singleSubtree, keepChild, hnode, hleaf, hP⟩ := hchanged rfl
    obtain ⟨-, hempty, hsingle, hkeep, -, hnil, -⟩ := extractWithLeaf_eq_some hleaf
    have hne := hG.ne_of_edge hkeep
    have hforest := hP.isForest hG hnode (.of_edge hkeep) hne
    refine ⟨G', true, hpass, hforest, (hP.prunes hG hnode (.of_edge hkeep)).laid hforest hL,
      fun h => (nomatch h), fun _ => ⟨node, singleSubtree, keepChild, hleaf, hempty, hsingle, hnil, hkeep, ?_⟩⟩
    exact putInPlace_of_promotes hG hL hnode (.of_edge hkeep) hne hP

/-- The theorem on the second pass at the same graph. -/
theorem processExtract_readGraph : ∃ G' changed,
    processExtractWithSingleNodeSubtree readGraph = some (G', changed) ∧ G'.IsForest ∧ G'.Laid := by
  obtain ⟨G', changed, h, hforest, hlaid, -⟩ := processExtractWithSingleNodeSubtree_spec (G := readGraph)
    RoseTree.isForest_toGraph (by decide +kernel)
  exact ⟨G', changed, h, hforest, hlaid⟩

/-- **A copy turns the operands round**: `process_graph` leaves the operands of the parent in their order by
number, but the value that it has put there comes last in every copy of what is below the parent. -/
theorem processGraph_relabelled (hG : G.IsForest) (hL : G.Laid) {G' : KqueryGraph}
    (h : processGraph G = some (G', true)) : ∃ p node w64Child, G.Edge p node ∧ G'.Edge p w64Child ∧
      G'.operands p = (G.operands p).map (fun c => if c = node then w64Child else c) ∧
      ∀ root fuel, G'.Below root p → G'.nodes.keys.length ≤ fuel → ∃ H ns,
        extractAndRelabelSubtree G' fuel root = some H ∧ IsCopy H G' root ns ∧
        ∀ i j, ns[i]? = some p → ns[j]? = some w64Child → ∀ k, H.Edge i k → k ≤ j := by
  obtain ⟨G'', changed, hpass, -, hchanged⟩ := processGraph_eq hG
  obtain ⟨rfl, rfl⟩ := Prod.mk.inj (Option.some.inj (h.symm.trans hpass))
  obtain ⟨node, e32Node, w64Child, hnode, hread, hP⟩ := hchanged rfl
  obtain ⟨-, hdegree, -, ⟨hne, -⟩, hew, -⟩ := readOfExtract_eq_some hread
  obtain ⟨p, hp⟩ : ∃ p, G.Edge p node := by
    obtain ⟨p, hp⟩ := List.exists_mem_of_ne_nil _ fun hnil => hdegree (List.length_eq_zero_iff.mpr hnil)
    exact ⟨p, mem_predecessors.mp hp⟩
  have hbelow : G.Below node w64Child := (Below.of_edge hne).trans (.of_edge hew)
  have hdistinct : node ≠ w64Child := by
    rintro rfl
    exact hG.not_below_of_edge hne (.of_edge hew)
  have hforest := hP.isForest hG hnode hbelow hdistinct
  have hedge : G'.Edge p w64Child := hP.edge.mpr (.inr ⟨hp, rfl⟩)
  refine ⟨p, node, w64Child, hp, hedge, hP.operands hG hL hnode hbelow hdistinct hp,
    fun root fuel hroot hfuel => ?_⟩
  have hrootMem : root ∈ G' := by
    rcases hroot.eq_or_child with rfl | ⟨c, hc, -⟩
    · exact hedge.left
    · exact hc.left
  obtain ⟨H, ns, hH, hcopy, hnodup⟩ := extractAndRelabelSubtree_forest hforest hrootMem
  refine ⟨H, ns, hH fuel hfuel, hcopy, fun i j hi hj k hk => ?_⟩
  have hlast := hcopy.successors i p hi
  rw [hP.successors hG hnode hbelow hdistinct hp, List.map_append, List.map_singleton] at hlast
  obtain ⟨before, after, hsuccessors, -, hafter⟩ := List.map_eq_append_iff.mp hlast
  obtain ⟨j', rfl, hj'⟩ := List.map_eq_singleton_iff.mp hafter
  have hjj' : j = j' := by
    have hjlt := (List.getElem?_eq_some_iff.mp hj).1
    exact (List.getElem?_inj hjlt hnodup).mp (hj.trans hj'.symm)
  have hordered := hcopy.ordered i
  rw [hsuccessors, List.pairwise_append] at hordered
  have hk := mem_successors.mpr hk
  rw [hsuccessors, List.mem_append, List.mem_singleton] at hk
  rcases hk with hk | rfl
  · exact hjj' ▸ (hordered.2.2 k hk j' List.mem_cons_self).le
  · exact hjj'.ge

/-- The theorem on the relabelled copy, where the read has a node above it. -/
theorem processGraph_relabelled_readGraph : ∃ G', processGraph readGraph = some (G', true) ∧
    ∃ p node w64Child, readGraph.Edge p node ∧ G'.Edge p w64Child := by
  obtain ⟨⟨G', changed⟩, h, hchanged⟩ := Option.map_eq_some_iff.mp
    (by decide +kernel : (processGraph readGraph).map Prod.snd = some true)
  obtain rfl : changed = true := hchanged
  obtain ⟨p, node, w64Child, hp, hp', -⟩ := processGraph_relabelled (G := readGraph) RoseTree.isForest_toGraph
    (by decide +kernel) h
  exact ⟨G', h, p, node, w64Child, hp, hp'⟩

/-- **`process_graph_sub`** raises nothing on a forest. It takes the first `Extract` with several operands of
which one is an `Add`, if one operand of that is an extension. Of the extract that sum is left, and of an
extension of one operand that operand; all that is left is below one another as it was. -/
theorem processGraphSub_spec (hG : G.IsForest) (hL : G.Laid) : ∃ G' changed,
    processGraphSub G = some (G', changed) ∧ G'.IsForest ∧ G'.Laid ∧
      (changed = false → G' = G ∧ ∀ n ∈ G, extractOfAdd G n = none) ∧
      (changed = true → ∃ extractNode addNode sextNode,
        extractOfAdd G extractNode = some (extractNode, addNode, sextNode) ∧
        isExtractNode G extractNode = true ∧ (G.successors extractNode).filter (isAddNode G) = [addNode] ∧
        (G.successors addNode).filter (isZextNode G) = [sextNode] ∧
        (∀ x, x ∈ G' ↔ x ∈ G ∧ (G.Below extractNode x → G.Below addNode x) ∧
          (x = sextNode → G.successors sextNode = [])) ∧
        ∀ operand, G.successors sextNode = [operand] → Restricts G' G fun x =>
          (G.Below extractNode x → G.Below addNode x) ∧ x ≠ sextNode) := by
  obtain ⟨G', changed, hpass, hforest, hprunes, hsame, hchanged⟩ := processGraphSub_eq hG
  refine ⟨G', changed, hpass, hforest, hprunes.laid hforest hL, hsame, fun h => ?_⟩
  obtain ⟨extractNode, addNode, sextNode, -, hfound, hmem, hrestricts⟩ := hchanged h
  obtain ⟨-, hextract, -, hadd, hsext⟩ := extractOfAdd_eq_some hfound
  exact ⟨extractNode, addNode, sextNode, hfound, hextract, hadd, hsext, hmem, hrestricts⟩

/-- The theorem on the fourth pass at the same graph. -/
theorem processGraphSub_readGraph : ∃ G' changed, processGraphSub readGraph = some (G', changed) ∧ G'.IsForest := by
  obtain ⟨G', changed, h, hforest, -⟩ := processGraphSub_spec (G := readGraph) RoseTree.isForest_toGraph
    (by decide +kernel)
  exact ⟨G', changed, h, hforest⟩

/-- **`process_graph_ZExt`** raises nothing on a forest. It changes the graph exactly if the first `Extract` has
an operand with extensions in both of its first two operands. Then the extract, its operands without an
extension and all extensions are gone. What was above the extract is not above what was below it any more;
the rest is below one another as it was. -/
theorem processGraphZExt_spec (hG : G.IsForest) (hL : G.Laid) : ∃ G' changed,
    processGraphZExt G = some (G', changed) ∧ G'.IsForest ∧ G'.Laid ∧
      (changed = false → G' = G ∧
        ∀ n, G.nodes.keys.find? (isExtractNode G) = some n → ¬ TwoZextBranches G n) ∧
      (changed = true → ∃ n, G.nodes.keys.find? (isExtractNode G) = some n ∧ TwoZextBranches G n ∧
        (∀ x, x ∈ G' ↔ x ∈ G ∧ x ≠ n ∧ isZextNode G x = false ∧
          ∀ c, G.Edge n c → G.Below c x → HasZext G c) ∧
        ∀ u ∈ G', ∀ v ∈ G', (G'.Below u v ↔ G.Below u v ∧ ¬ (G.Below u n ∧ G.Below n v))) := by
  obtain ⟨G', changed, hpass, hforest, hprunes, hsame, hchanged⟩ := processGraphZExt_eq hG
  exact ⟨G', changed, hpass, hforest, hprunes.laid hforest hL, hsame, hchanged⟩

/-- The theorem on the third pass at the same graph. -/
theorem processGraphZExt_readGraph : ∃ G' changed, processGraphZExt readGraph = some (G', changed) ∧ G'.IsForest := by
  obtain ⟨G', changed, h, hforest, -⟩ := processGraphZExt_spec (G := readGraph) RoseTree.isForest_toGraph
    (by decide +kernel)
  exact ⟨G', changed, h, hforest⟩

/-- **`simplify_update_list`** raises nothing where addresses are leaves with a sibling and updates have two
operands. It leaves a forest of the same kind, in which all that is left is below one another as it was. Only
nodes below an update are gone, and only an address may have lost its attributes. -/
theorem simplifyUpdateList_spec (hG : G.IsForest) (hL : G.Laid) (hR : UpdatesReady G) : ∃ G' changed,
    simplifyUpdateList G = some (G', changed) ∧ G'.IsForest ∧ G'.Laid ∧ UpdatesReady G' ∧
      (changed = false → G' = G) ∧
      (∀ x ∈ G, x ∉ G' → ∃ upd, G.label upd = some "update_list" ∧ G.Below upd x) ∧
      ∀ x ∈ G', x ∈ G ∧ (∀ y ∈ G', G'.Below x y ↔ G.Below x y) ∧
        (G'.nodes.get? x = G.nodes.get? x ∨ isKleeOffset G x = true ∧ G'.nodes.get? x = some default) := by
  obtain ⟨⟨G', changed⟩, hrun, h, hsame⟩ := simplifyUpdateList_eq hG hR
  exact ⟨G', changed, hrun, h.isForest, h.laid hL, h.ready, hsame, fun x hx hx' => h.gone hx hx',
    fun x hx => ⟨h.mem hx, fun y hy => h.below hx hy, h.data hx⟩⟩

/-- The theorem on the update lists at the graph of a read through one update. -/
theorem simplifyUpdateList_updateGraph : ∃ G' changed,
    simplifyUpdateList updateGraph = some (G', changed) ∧ G'.IsForest ∧ UpdatesReady G' := by
  obtain ⟨G', changed, h, hforest, -, hready, -⟩ := simplifyUpdateList_spec (G := updateGraph)
    RoseTree.isForest_toGraph (by decide +kernel) (by decide +kernel)
  exact ⟨G', changed, h, hforest, hready⟩

/-- **The six functions raise nothing**, and what the updates' simplification leaves is pruned. -/
theorem postProcess_eq (hG : G.IsForest) (hR : UpdatesReady G) : ∃ G₀ G' removedOffset,
    simplifyUpdateList G = some (G₀, removedOffset) ∧ postProcess G = some (G', removedOffset) ∧
      Simplified G₀ G ∧ G'.IsForest ∧ Prunes G' G₀ := by
  obtain ⟨⟨G₀, removedOffset⟩, h₀, hsimplified, -⟩ := simplifyUpdateList_eq hG hR
  obtain ⟨⟨G₁, _⟩, h₁, hforest₁, hprunes₁⟩ := keepsForests_processGraph G₀ hsimplified.isForest
  obtain ⟨⟨G₂, _⟩, h₂, hforest₂, hprunes₂⟩ := keepsForests_processGraphZExt G₁ hforest₁
  obtain ⟨⟨G₃, _⟩, h₃, hforest₃, hprunes₃⟩ := keepsForests_processGraphSub G₂ hforest₂
  obtain ⟨⟨G₄, _⟩, h₄, hforest₄, hprunes₄⟩ := keepsForests_processExtract G₃ hforest₃
  obtain ⟨⟨G₅, _⟩, h₅, hforest₅, hprunes₅⟩ := keepsForests_processRootZextEqOnly G₄ hforest₄
  refine ⟨G₀, G₅, removedOffset, h₀, ?_, hsimplified, hforest₅,
    hprunes₁.trans (hprunes₂.trans (hprunes₃.trans (hprunes₄.trans hprunes₅)))⟩
  simp only [postProcess, h₀, h₁, h₂, h₃, h₄, h₅, Option.bind_eq_bind, Option.bind_some]
  rfl

end Passes

/-- **After a visit the six functions raise nothing** if the updates in the graph are ready. What they leave is
a forest, laid out in the order of the text; nothing has come below anything, and a node has its attributes or,
if it is an address, none. -/
theorem postProcess_spec {baseAddress : List Int} {e : KqueryExpr} (he : e.buildable = true)
    {u : RoseTree GraphNode} {s' : GrapherState} (hvisit : visitExpr baseAddress e .fresh = some (u.map some, s'))
    {G : KqueryGraph} (hvisited : IsVisitGraph G u) (hR : UpdatesReady G) : ∃ G' removedOffset,
      postProcess G = some (G', removedOffset) ∧ G'.IsForest ∧ G'.Laid ∧ (∀ {x}, x ∈ G' → x ∈ G ∧
        (G'.nodes.get? x = G.nodes.get? x ∨ isKleeOffset G x = true ∧ G'.nodes.get? x = some default)) ∧
          ∀ {x y}, G'.Below x y → G.Below x y := by
  obtain ⟨u', s'', hrun, -, hnum, -⟩ :=
    (visitExpr_builds e he : Builds baseAddress _ _) .fresh (fun _ => none) fun _ => .none
  obtain ⟨hu, rfl⟩ := Prod.mk.inj (Option.some.inj (hvisit.symm.trans hrun))
  obtain rfl := RoseTree.map_injective (Option.some_injective _) hu
  obtain ⟨hforest, hlaid⟩ := hvisited.isForest_laid hnum
  obtain ⟨G₀, G', removedOffset, -, hG', hsimplified, hforest', hprunes⟩ := postProcess_eq hforest hR
  refine ⟨G', removedOffset, hG', hforest', hprunes.laid hforest' (hsimplified.laid hlaid), ?_, ?_⟩
  · intro x hx
    refine ⟨hsimplified.mem (hprunes.mem hx), ?_⟩
    rw [hprunes.get? hx]
    exact hsimplified.data (hprunes.mem hx)
  · intro x y h
    rcases h.eq_or_child with rfl | ⟨c, hc, -⟩
    · exact .refl _
    · exact (hsimplified.below (hprunes.mem hc.left) (hprunes.mem (h.mem_of_left hc.left))).mp (hprunes.below h)

/-- The theorem on all six passes at an expression that the grammar allows, starting from the visit
of it. -/
theorem postProcess_updateExpr : ∃ s', visitExpr [624] updateExpr .fresh = some (updateTree.map some, s') ∧
    ∃ G' removedOffset, postProcess updateGraph = some (G', removedOffset) ∧ G'.IsForest ∧ G'.Laid :=
  ⟨_, rfl, by
    obtain ⟨G', removedOffset, h⟩ := @postProcess_spec [624] updateExpr (by decide) updateTree _ rfl updateGraph
      (isVisitGraph_toGraph _ _) (by decide +kernel)
    exact ⟨G', removedOffset, h.1, h.2.1, h.2.2.1⟩⟩

/-! ## The stored values -/

section Values

variable {G : KqueryGraph} {offset : String} {child n value : Nat}

/-- An address is found below the root. -/
theorem findTargetOffsetNode_eq_some (hG : G.IsForest) (hchild : child ∈ G)
    (h : findTargetOffsetNode G child offset = some n) : G.Below child n := by
  obtain ⟨t, rfl, ht⟩ := exists_unfolds_forest hG hchild
  rw [findTargetOffsetNode, dfsPreorderNodes_eq hG ht hchild] at h
  exact ht.mem_labels.mp (List.mem_of_find?_eq_some h)

/-- The siblings in a forest. -/
theorem mem_getSiblings (hG : G.IsForest) {p s : Nat} (hp : G.Edge p n) :
    s ∈ getSiblings G n ↔ G.Edge p s ∧ s ≠ n := by
  rw [getSiblings, hG.predecessors_eq hp, List.mem_filter, mem_successors, decide_eq_true_eq]

/-- The nodes that are asked about an offset are the operands of the nodes of update lists. -/
theorem mem_updatesOf : child ∈ updatesOf G ↔ ∃ upd, G.label upd = some "update_list" ∧ G.Edge upd child := by
  rw [updatesOf, List.mem_flatMap]
  constructor
  · rintro ⟨upd, hupd, hchild⟩
    exact ⟨upd, by simpa using (List.mem_filter.mp hupd).2, mem_successors.mp hchild⟩
  · rintro ⟨upd, hupd, hchild⟩
    exact ⟨upd, List.mem_filter.mpr ⟨hchild.left, by simpa using hupd⟩, mem_successors.mpr hchild⟩

/-- **The first address of an update** that has the label, a child of `p`. -/
structure FoundAt (G : KqueryGraph) (offset : String) (n p : Nat) : Prop where
  found : ∃ upd child, G.label upd = some "update_list" ∧ G.Edge upd child ∧
    findTargetOffsetNode G child offset = some n
  edge : G.Edge p n
  ne : n ≠ 0

/-- **`find_target_value_node` raises** exactly if an address that it finds is an only child. -/
theorem findTargetValueNode_eq_none_iff (hG : G.IsForest) : findTargetValueNode G offset = none ↔
    ∃ n p, FoundAt G offset n p ∧ ∀ s, G.Edge p s → s = n := by
  rw [findTargetValueNode, Option.map_eq_none_iff, mapM_eq_none_iff]
  constructor
  · rintro ⟨child, hchild, h⟩
    obtain ⟨upd, hupd, hedge⟩ := mem_updatesOf.mp hchild
    unfold targetValueNode at h
    split at h
    · cases h
    · rename_i n hn
      split at h
      · cases h
      · rename_i hne
        obtain ⟨p, hp⟩ := (findTargetOffsetNode_eq_some hG hedge.right hn).exists_parent hedge
        refine ⟨n, p, ⟨⟨upd, child, hupd, hedge, hn⟩, hp, hne⟩, fun s hs => ?_⟩
        by_contra hsn
        split at h
        · rename_i hnone
          have := (mem_getSiblings hG hp).mpr ⟨hs, hsn⟩
          rw [hnone] at this
          cases this
        · cases h
  · rintro ⟨n, p, ⟨⟨upd, child, hupd, hedge, hn⟩, hp, hne⟩, honly⟩
    refine ⟨child, mem_updatesOf.mpr ⟨upd, hupd, hedge⟩, ?_⟩
    have hnone : getSiblings G n = [] := by
      apply List.eq_nil_iff_forall_not_mem.mpr
      intro s hs
      obtain ⟨hs, hsn⟩ := (mem_getSiblings hG hp).mp hs
      exact hsn (honly s hs)
    simp only [targetValueNode, hn, if_neg hne, hnone]

/-- The value that one update stores at the address, if it stores one there. -/
def storedAt (G : KqueryGraph) (offset : String) (child : Nat) : Option Nat :=
  (findTargetOffsetNode G child offset).bind fun n => if n = 0 then none else (getSiblings G n).head?

/-- **The values in the order of the updates.** -/
theorem findTargetValueNode_eq {values : List Nat} (h : findTargetValueNode G offset = some values) :
    values = (updatesOf G).filterMap (storedAt G offset) := by
  have hone : ∀ {child one}, targetValueNode G offset child = some one → one = (storedAt G offset child).toList := by
    intro child one hone
    unfold targetValueNode at hone
    unfold storedAt
    split at hone
    · rename_i hn
      rw [hn, Option.bind_none]
      exact (Option.some.inj hone).symm
    · rename_i n hn
      rw [hn, Option.bind_some]
      split at hone
      · rename_i hzero
        rw [if_pos hzero]
        exact (Option.some.inj hone).symm
      · rename_i hzero
        rw [if_neg hzero]
        split at hone
        · cases hone
        · rename_i sibling _ hsiblings
          rw [hsiblings]
          exact (Option.some.inj hone).symm
  obtain ⟨found, hfound, rfl⟩ := Option.map_eq_some_iff.mp h
  clear h
  generalize updatesOf G = children at hfound
  induction children generalizing found with
  | nil =>
    obtain rfl := Option.some.inj hfound
    rfl
  | cons child children ih =>
    rw [List.mapM_cons] at hfound
    obtain ⟨first, hfirst, hfound⟩ := Option.bind_eq_some_iff.mp hfound
    obtain ⟨rest, hrest, hfound⟩ := Option.bind_eq_some_iff.mp hfound
    obtain rfl := Option.some.inj hfound
    rw [List.flatten_cons, ih _ hrest, hone hfirst, List.filterMap_cons]
    cases storedAt G offset child <;> rfl

/-- **Where an address is found a value is stored**, beside it. -/
theorem FoundAt.exists_storedAt {p : Nat} (hG : G.IsForest) (h : FoundAt G offset n p)
    (hsibling : ∃ s, G.Edge p s ∧ s ≠ n) :
    ∃ value ∈ (updatesOf G).filterMap (storedAt G offset), G.Edge p value ∧ value ≠ n := by
  obtain ⟨⟨upd, child, hupd, hedge, hn⟩, hp, hne⟩ := h
  obtain ⟨s, hs, hsn⟩ := hsibling
  cases hsiblings : getSiblings G n with
  | nil =>
    have hmem := (mem_getSiblings hG hp).mpr ⟨hs, hsn⟩
    rw [hsiblings] at hmem
    cases hmem
  | cons value rest =>
    have hmem : value ∈ getSiblings G n := hsiblings ▸ List.mem_cons_self
    refine ⟨value, List.mem_filterMap.mpr ⟨child, mem_updatesOf.mpr ⟨upd, hupd, hedge⟩, ?_⟩,
      (mem_getSiblings hG hp).mp hmem⟩
    rw [storedAt, hn, Option.bind_some, if_neg hne, hsiblings]
    rfl

/-- **Each value is beside an address that is found.** -/
theorem mem_findTargetValueNode (hG : G.IsForest) {values : List Nat}
    (h : findTargetValueNode G offset = some values) (hvalue : value ∈ values) :
    ∃ n p, FoundAt G offset n p ∧ G.Edge p value ∧ value ≠ n := by
  obtain ⟨found, hfound, rfl⟩ := Option.map_eq_some_iff.mp h
  obtain ⟨one, hone, hvalue⟩ := List.mem_flatten.mp hvalue
  obtain ⟨child, hchild, hone⟩ := exists_of_mem_mapM hfound one hone
  obtain ⟨upd, hupd, hedge⟩ := mem_updatesOf.mp hchild
  unfold targetValueNode at hone
  split at hone
  · obtain rfl := Option.some.inj hone
    cases hvalue
  · rename_i n hn
    split at hone
    · obtain rfl := Option.some.inj hone
      cases hvalue
    · rename_i hne
      obtain ⟨p, hp⟩ := (findTargetOffsetNode_eq_some hG hedge.right hn).exists_parent hedge
      split at hone
      · cases hone
      · rename_i sibling _ hsiblings
        obtain rfl := Option.some.inj hone
        obtain rfl := List.mem_singleton.mp hvalue
        have hmem : value ∈ getSiblings G n := hsiblings ▸ List.mem_cons_self
        obtain ⟨hv, hvn⟩ := (mem_getSiblings hG hp).mp hmem
        exact ⟨n, p, ⟨⟨upd, child, hupd, hedge, hn⟩, hp, hne⟩, hv, hvn⟩

end Values

/-! ## What is written -/

section Written

variable {G : KqueryGraph} {key : String} {offsetMap : Dict String String} {value : Nat}

/-- **The address that the key asks for**, found below an update, and its parent. -/
def AskedFor (key : String) (offsetMap : Dict String String) (G : KqueryGraph) (n p : Nat) : Prop :=
  ∃ offset, targetOffset key offsetMap = some offset ∧ FoundAt G offset n p

/-- Looking a value up raises exactly if the offset asked for stands in an update that has no other
operand, for then there is no value to take. -/
theorem fetchValue_eq_none_iff (hG : G.IsForest) : fetchValue key offsetMap G = none ↔
    ∃ n p, AskedFor key offsetMap G n p ∧ ∀ s, G.Edge p s → s = n := by
  unfold fetchValue AskedFor
  cases hoffset : targetOffset key offsetMap with
  | none => simp
  | some offset =>
    simp only [Option.some.injEq, exists_eq_left']
    exact findTargetValueNode_eq_none_iff hG

/-- What is looked up are operands of an update whose offset is the one asked for. -/
theorem mem_fetchValue (hG : G.IsForest) {values : List Nat} (h : fetchValue key offsetMap G = some values)
    (hvalue : value ∈ values) : ∃ n p, AskedFor key offsetMap G n p ∧ G.Edge p value ∧ value ≠ n := by
  unfold fetchValue at h
  split at h
  · obtain rfl := Option.some.inj h
    cases hvalue
  · rename_i offset hoffset
    obtain ⟨n, p, hfound, hvalue⟩ := mem_findTargetValueNode hG h hvalue
    exact ⟨n, p, ⟨offset, hoffset, hfound⟩, hvalue⟩

/-- **The values that are stored at the address** the key asks for, in the order of the updates. -/
def storedValues (key : String) (offsetMap : Dict String String) (G : KqueryGraph) : List Nat :=
  match targetOffset key offsetMap with
  | none => []
  | some offset => (updatesOf G).filterMap (storedAt G offset)

/-- Where it does not raise, it finds the stored values in the order in which the updates stand. -/
theorem fetchValue_eq_storedValues {values : List Nat} (h : fetchValue key offsetMap G = some values) :
    values = storedValues key offsetMap G := by
  unfold fetchValue at h
  unfold storedValues
  cases hoffset : targetOffset key offsetMap with
  | none =>
    rw [hoffset] at h
    exact (Option.some.inj h).symm
  | some offset =>
    rw [hoffset] at h
    exact findTargetValueNode_eq h

/-- A copy of what is below a value. -/
def CopyBelow (G : KqueryGraph) (value : Nat) (H : KqueryGraph) : Prop :=
  H.IsForest ∧ ∃ ns, IsCopy H G value ns ∧ ns.Nodup

/-- **A copy for each value**, in their order. -/
theorem mapM_copies (hG : G.IsForest) {fuel : Nat} (hfuel : G.nodes.keys.length ≤ fuel) : ∀ (values : List Nat),
    (∀ value ∈ values, value ∈ G) → ∃ graphs, values.mapM (extractAndRelabelSubtree G fuel) = some graphs ∧
      List.Forall₂ (CopyBelow G) values graphs
  | [], _ => ⟨[], rfl, .nil⟩
  | value :: values, h => by
    obtain ⟨H, ns, hH, hcopy, hnodup⟩ := extractAndRelabelSubtree_forest hG (h value List.mem_cons_self)
    obtain ⟨graphs, hgraphs, hall⟩ := mapM_copies hG hfuel values fun v hv => h v (List.mem_cons_of_mem value hv)
    refine ⟨H :: graphs, ?_, .cons ⟨hcopy.isForest, ns, hcopy, hnodup⟩ hall⟩
    rw [List.mapM_cons, hH fuel hfuel, hgraphs]
    rfl

/-- **What is written of a simplified graph**: the graph where no value is stored at the address that the key asks
for, and else a copy for each value. The values are beside addresses asked for, one for each of them at least. -/
structure WrittenFrom (key : String) (offsetMap : Dict String String) (G : KqueryGraph) (values : List Nat)
    (graphs : List KqueryGraph) : Prop where
  graph : values = [] → graphs = [G]
  copies : values ≠ [] → List.Forall₂ (CopyBelow G) values graphs
  beside : ∀ value ∈ values, ∃ n p, AskedFor key offsetMap G n p ∧ G.Edge p value ∧ value ≠ n

/-- **The graphs of the values.** -/
theorem graphsOf_eq (hG : G.IsForest) {fuel : Nat} (hfuel : G.nodes.keys.length ≤ fuel) {values : List Nat}
    (hbeside : ∀ value ∈ values, ∃ n p, AskedFor key offsetMap G n p ∧ G.Edge p value ∧ value ≠ n) :
    ∃ graphs, graphsOf fuel G values = some graphs ∧ WrittenFrom key offsetMap G values graphs := by
  cases values with
  | nil => exact ⟨[G], rfl, fun _ => rfl, fun h => absurd rfl h, hbeside⟩
  | cons value values =>
    obtain ⟨graphs, hgraphs, hall⟩ := mapM_copies hG hfuel (value :: values) fun v hv => by
      obtain ⟨n, p, -, hedge, -⟩ := hbeside v hv
      exact hedge.right
    exact ⟨graphs, hgraphs, fun h => absurd h (List.cons_ne_nil _ _), fun _ => hall, hbeside⟩

/-- Labels of leaves do not matter for the updates. -/
theorem Relabelled.ready {G' : KqueryGraph} {seen : List Nat} (h : Relabelled offsetMap G' G seen)
    (hR : UpdatesReady G) : UpdatesReady G' where
  leaf ho := by
    rw [isKleeOffset, h.type] at ho
    rw [h.successors]
    exact hR.leaf ho
  sibling ho hp := by
    rw [isKleeOffset, h.type] at ho
    obtain ⟨s, hs, hso⟩ := hR.sibling ho (h.edge_iff.mp hp)
    exact ⟨s, h.edge_iff.mpr hs, hso⟩
  pair := by
    intro upd child o hupd hchild ho
    have hkept : G'.label upd = G.label upd := h.kept fun u _ label hwritten => by
      have hnil := (edge_of_writtenLabel hwritten).2
      have hmem := mem_successors.mpr (h.edge_iff.mp hchild)
      rw [hnil] at hmem
      cases hmem
    rw [hkept] at hupd
    obtain ⟨s, hs, hso⟩ := hR.pair hupd (h.edge_iff.mp hchild) (h.edge_iff.mp ho)
    exact ⟨s, h.edge_iff.mpr hs, hso⟩

/-- The value that is stored at the address. -/
example : (writtenGraphs 10 "arg_0_field_3" ⟨[("3", "8")], by decide⟩ updateGraph).map
    (·.map fun H => (H.nodes.entries, H.edges.keys)) = some [([(0, ⟨some "v", none⟩)], [])] := by decide +kernel

end Written

end Assure
