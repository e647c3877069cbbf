import Assure.Library.Forest
import Assure.Library.StackSearch

/-!
# Simplifying the graph of an expression

After a visit the graph is simplified: conversions of width that only one of the two compilers writes are
taken out. Each pass looks for the first place of its shape, in the order of the nodes, and changes the
graph there. A pass raises where it asks for the successors of a node that is gone.

The graph of a visit is a forest. On a forest no pass raises, each gives a forest again, and what it leaves
is below one another as it was: `processGraph_eq` and the theorems after it say for each pass where it
changes the graph and what it leaves.
-/

namespace Assure

open Assure.Library Assure.Library.OrderedGraph

/-! ## The graph -/

/-- The attributes of a node. -/
structure NodeAttributes where
  label : Option String
  type : Option String
  deriving DecidableEq, Inhabited

/-- **The graph of an expression**, some edges with a label. -/
abbrev KqueryGraph := OrderedGraph Nat NodeAttributes (Option String)

/-- `G.nodes[n].get('label')` -/
def KqueryGraph.label (G : KqueryGraph) (n : Nat) : Option String := (G.nodes.get? n).bind (·.label)

/-- `G.nodes[n].get('type')` -/
def KqueryGraph.type (G : KqueryGraph) (n : Nat) : Option String := (G.nodes.get? n).bind (·.type)

/-- `G.in_degree(n)` -/
def KqueryGraph.inDegree (G : KqueryGraph) (n : Nat) : Nat := (G.predecessors n).length

section Kinds

variable (G : KqueryGraph) (n : Nat)

def isSingleNodeSubtree : Bool := (G.successors n).length == 0

def isExtractNode : Bool := G.label n == some "Extract"

/-- No type, or an empty one. -/
def isEmptyTypeExtractNode : Bool :=
  G.label n == some "Extract" && (G.type n == none || G.type n == some "")

def isZextNode : Bool := G.label n == some "ZExt" || G.label n == some "SExt"

def isAddNode : Bool := G.label n == some "Add"

def isReadlsbW64 : Bool := G.label n == some "ReadLSB" && G.type n == some "w64"

def isExtractW32 : Bool := G.label n == some "Extract" && G.type n == some "w32"

def isTypeW64 : Bool := G.type n == some "w64"

end Kinds

/-! ## Changes of the graph -/

/-- `if not G.has_edge(u, v): G.add_edge(u, v)` -/
def linkNodes (G : KqueryGraph) (edge : Nat × Nat) : KqueryGraph :=
  if G.Edge edge.1 edge.2 then G else G.addEdge edge.1 edge.2 none

def rewireParentToChild (G : KqueryGraph) (oldNode newChild : Nat) : Option KqueryGraph :=
  if oldNode ∈ G then
    (((G.predecessors oldNode).map fun p => (p, newChild)).foldl linkNodes G).removeNode oldNode
  else some G

def removeNodeKeepChildren (G : KqueryGraph) (node : Nat) : Option KqueryGraph :=
  if node ∈ G then
    ((G.predecessors node ×ˢ G.successors node).foldl linkNodes G).removeNode node
  else some G

/-- It raises for a node that is not there. -/
def subtreeContainsZext (G : KqueryGraph) (root : Nat) : Option Bool :=
  if root ∈ G then
    StackSearch.search G.successors (isZextNode G)
      (1 + (G.nodes.keys.map fun v => (G.successors v).length).sum) root
  else none

/-! ## The passes -/

/-- A pass gives the graph and whether it has changed it. -/
abbrev Pass := KqueryGraph → Option (KqueryGraph × Bool)

/-- What `process_graph` looks for: the `Extract w32` under the node and the operand to keep. -/
def readOfExtract (G : KqueryGraph) (node : Nat) : Option (Nat × Nat × Nat) := do
  guard (G.inDegree node ≠ 0)
  guard (isReadlsbW64 G node)
  let e32Node ← (G.successors node).find? (isExtractW32 G)
  let w64Child ← (G.successors e32Node).find? (isTypeW64 G)
  guard (w64Child ≠ 0)
  return (node, e32Node, w64Child)

def processGraph : Pass := fun G =>
  match G.nodes.keys.findSome? (readOfExtract G) with
  | none => some (G, false)
  | some (node, e32Node, w64Child) => do
    let e32Children := G.successors e32Node
    let G := ((G.successors node).filter (· ≠ e32Node)).foldl removeSubtree G
    let G := (e32Children.filter (· ≠ w64Child)).foldl removeSubtree G
    let G ← rewireParentToChild G e32Node w64Child
    let G ← rewireParentToChild G node w64Child
    return (G, true)

/-- What `process_graph_sub` looks for: an `Extract`, its one `Add` operand, and the one extension
under that. -/
def extractOfAdd (G : KqueryGraph) (extractNode : Nat) : Option (Nat × Nat × Nat) := do
  guard (isExtractNode G extractNode)
  guard (2 ≤ (G.successors extractNode).length)
  match (G.successors extractNode).filter (isAddNode G) with
  | [addNode] =>
    match (G.successors addNode).filter (isZextNode G) with
    | [sextNode] => some (extractNode, addNode, sextNode)
    | _ => none
  | _ => none

def processGraphSub : Pass := fun G =>
  match G.nodes.keys.findSome? (extractOfAdd G) with
  | none => some (G, false)
  | some (extractNode, addNode, sextNode) => do
    let sextChildren := G.successors sextNode
    let G := ((G.successors extractNode).filter (· ≠ addNode)).foldl removeSubtree G
    let G ← sextChildren.foldlM (fun G sc => rewireParentToChild G sextNode sc) G
    let G ← rewireParentToChild G extractNode addNode
    return (G, true)

/-- The first two operands of a node have each an extension in them. -/
def firstTwoContainZext (G : KqueryGraph) (subroot : Nat) : Option Bool :=
  match G.successors subroot with
  | left :: right :: _ => do
    if ← subtreeContainsZext G left then subtreeContainsZext G right else return false
  | _ => return false

def findSubtreeWithTwoZextBranches (G : KqueryGraph) (root : Nat) : Option Bool :=
  (G.successors root).anyM (firstTwoContainZext G)

/-- `if not subtree_contains_zext(G, c): remove_subtree(G, c)` -/
def removeZextFree (G : KqueryGraph) (c : Nat) : Option KqueryGraph := do
  if ← subtreeContainsZext G c then return G else return G.removeSubtree c

/-- `if node in G: G.remove_node(node)` -/
def removeIfThere (G : KqueryGraph) (node : Nat) : Option KqueryGraph :=
  if node ∈ G then G.removeNode node else some G

def processGraphZExt : Pass := fun G =>
  match G.nodes.keys.find? (isExtractNode G) with
  | none => some (G, false)
  | some extractNode => do
    if ← findSubtreeWithTwoZextBranches G extractNode then
      let G ← (G.successors extractNode).foldlM removeZextFree G
      let G ← removeIfThere G extractNode
      let G ← (G.nodes.keys.filter (isZextNode G)).foldlM removeNodeKeepChildren G
      return (G, true)
    else return (G, false)

/-- What `process_root_zext_eq_only` looks for: an extension of an `Eq` and nothing above it. -/
def rootZextOfEq (G : KqueryGraph) (node : Nat) : Option Nat := do
  guard (G.inDegree node = 0 ∧ isZextNode G node)
  match G.successors node with
  | [eqNode] => if G.label eqNode = some "Eq" then some node else none
  | _ => none

def processRootZextEqOnly : Pass := fun G =>
  match G.nodes.keys.findSome? (rootZextOfEq G) with
  | none => some (G, false)
  | some node => do
    let G ← removeNodeKeepChildren G node
    return (G, true)

/-- The operand that is a leaf, the first one if both are, and the other one. -/
def singleAndKeep (G : KqueryGraph) (childA childB : Nat) : Option (Nat × Nat) :=
  if isSingleNodeSubtree G childA then some (childA, childB)
  else if isSingleNodeSubtree G childB then some (childB, childA)
  else none

/-- What `process_extract_with_single_node_subtree` looks for: the leaf and the operand to keep. -/
def extractWithLeaf (G : KqueryGraph) (node : Nat) : Option (Nat × Nat × Nat) := do
  guard (isEmptyTypeExtractNode G node)
  match G.successors node with
  | [childA, childB] =>
    let (singleSubtree, keepChild) ← singleAndKeep G childA childB
    guard (singleSubtree ≠ 0 ∧ keepChild ≠ 0)
    return (node, singleSubtree, keepChild)
  | _ => none

def processExtractWithSingleNodeSubtree : Pass := fun G =>
  match G.nodes.keys.findSome? (extractWithLeaf G) with
  | none => some (G, false)
  | some (node, singleSubtree, keepChild) => do
    let G := G.removeSubtree singleSubtree
    let G ← rewireParentToChild G node keepChild
    return (G, true)

/-- A condition and what comes after it. -/
theorem guard_bind_eq_some {β : Type} {p : Prop} [Decidable p] {f : Unit → Option β} {b : β} :
    (guard p : Option Unit).bind f = some b ↔ p ∧ f () = some b := by
  by_cases hp : p
  · simp [guard, hp]
  · simp [guard, hp]

/-! ## Changes of a forest -/

section Changes

variable {G : KqueryGraph} {x y : Nat}

/-- Edges between nodes that are there. -/
theorem foldl_linkNodes : ∀ (edges : List (Nat × Nat)) (G : KqueryGraph),
    (∀ e ∈ edges, e.1 ∈ G ∧ e.2 ∈ G) → (edges.foldl linkNodes G).nodes = G.nodes ∧
      ∀ x y, (edges.foldl linkNodes G).Edge x y ↔ (x, y) ∈ edges ∨ G.Edge x y
  | [], G, _ => ⟨rfl, by simp⟩
  | e :: edges, G, h => by
    obtain ⟨hleft, hright⟩ := h e List.mem_cons_self
    have hnodes : (linkNodes G e).nodes = G.nodes := by
      unfold linkNodes
      split
      · rfl
      · exact nodes_addEdge hleft hright none
    have hedge : ∀ x y, (linkNodes G e).Edge x y ↔ (x, y) = e ∨ G.Edge x y := by
      intro x y
      unfold linkNodes
      split
      · rename_i he
        constructor
        · exact .inr
        · intro hxy
          rcases hxy with rfl | hxy
          · exact he
          · exact hxy
      · rw [edge_addEdge, Prod.ext_iff]
    obtain ⟨hfold, hfoldEdge⟩ := foldl_linkNodes edges (linkNodes G e) fun e' he' => by
      rw [mem_iff, mem_iff, hnodes]
      exact h e' (List.mem_cons_of_mem _ he')
    refine ⟨hfold.trans hnodes, fun x y => ?_⟩
    rw [List.foldl_cons, hfoldEdge, hedge, List.mem_cons]
    tauto

/-- Edges that are new are added at the end. -/
theorem entries_foldl_linkNodes : ∀ (edges : List (Nat × Nat)) (G : KqueryGraph), edges.Nodup →
    (∀ e ∈ edges, e ∉ G.edges.keys) → (edges.foldl linkNodes G).edges.entries =
      G.edges.entries ++ edges.map fun e => (e, none)
  | [], G, _, _ => by simp
  | e :: edges, G, hnodup, hnew => by
    have he : e ∉ G.edges.keys := hnew e List.mem_cons_self
    have hentries : (linkNodes G e).edges.entries = G.edges.entries ++ [(e, none)] := by
      rw [linkNodes, if_neg (show ¬ G.Edge e.1 e.2 from he)]
      exact Dict.entries_setdefault_of_notMem he none
    rw [List.foldl_cons, entries_foldl_linkNodes edges (linkNodes G e) (List.nodup_cons.mp hnodup).2, hentries]
    · simp
    · intro e' he'
      rw [Dict.keys, hentries, List.map_append, List.mem_append, not_or]
      refine ⟨hnew e' (List.mem_cons_of_mem _ he'), ?_⟩
      rintro h
      obtain rfl : e' = e := by simpa using h
      exact (List.nodup_cons.mp hnodup).1 he'

/-- **A child in the place of its parent.** -/
theorem rewireParentToChild_eq (hG : G.IsForest) {oldNode newChild : Nat} (hedge : G.Edge oldNode newChild) :
    ∃ G', rewireParentToChild G oldNode newChild = some G' ∧
      G'.nodes.entries = G.nodes.entries.filter (·.1 ≠ oldNode) ∧
      G'.edges.entries = (G.edges.entries.filter fun e => e.1.1 ≠ oldNode ∧ e.1.2 ≠ oldNode) ++
        (G.predecessors oldNode).map fun p => ((p, newChild), default) := by
  have hne := hG.ne_of_edge hedge
  have hpred : ∀ {p}, p ∈ G.predecessors oldNode → p ≠ oldNode := fun hp =>
    hG.ne_of_edge (mem_predecessors.mp hp)
  obtain ⟨hnodes, hlinked⟩ := foldl_linkNodes ((G.predecessors oldNode).map fun p => (p, newChild)) G
    fun e he => by
      obtain ⟨p, hp, rfl⟩ := List.mem_map.mp he
      exact ⟨(mem_predecessors.mp hp).left, hedge.right⟩
  have hentries := entries_foldl_linkNodes ((G.predecessors oldNode).map fun p => (p, newChild)) G
    ((predecessors_nodup G oldNode).map fun _ _ h => (Prod.mk.inj h).1)
    fun e he => by
      obtain ⟨p, hp, rfl⟩ := List.mem_map.mp he
      exact fun hp' => hpred hp (hG.parent hp' hedge)
  have hmem : oldNode ∈ ((G.predecessors oldNode).map fun p => (p, newChild)).foldl linkNodes G := by
    rw [mem_iff, hnodes]
    exact hedge.left
  refine ⟨_, by rw [rewireParentToChild, if_pos hedge.left, removeNode_of_mem hmem], ?_, ?_⟩
  · rw [entries_removeNodesFrom, hnodes]
    simp
  · rw [edges_removeNodesFrom, hentries, List.filter_append, List.map_map]
    congr 1
    · simp
    · rw [List.filter_eq_self.mpr]
      · rfl
      · intro e he
        obtain ⟨p, hp, rfl⟩ := List.mem_map.mp he
        simp [hpred hp, Ne.symm hne]

/-- The only child in the place of its parent. -/
theorem rewireParentToChild_promotes (hG : G.IsForest) {oldNode newChild : Nat}
    (hedge : G.Edge oldNode newChild) (honly : ∀ {c}, G.Edge oldNode c → c = newChild) :
    ∃ G', rewireParentToChild G oldNode newChild = some G' ∧ Promotes G' G oldNode newChild := by
  obtain ⟨G', hG', hnodes, hedges⟩ := rewireParentToChild_eq hG hedge
  exact ⟨G', hG', .of_only_child hG hedge honly hnodes hedges⟩

/-- A child in the place of its parent, the other children left without one. -/
theorem rewireParentToChild_bypasses (hG : G.IsForest) {oldNode newChild : Nat}
    (hedge : G.Edge oldNode newChild) : ∃ G', rewireParentToChild G oldNode newChild = some G' ∧
      Bypasses G' G oldNode (· = newChild) := by
  obtain ⟨G', hG', hnodes, hedges⟩ := rewireParentToChild_eq hG hedge
  refine ⟨G', hG', hnodes, ?_⟩
  intro x y
  have hkeys : G'.edges.keys = (G.edges.keys.filter fun e => e.1 ≠ oldNode ∧ e.2 ≠ oldNode) ++
      (G.predecessors oldNode).map fun p => (p, newChild) := by
    rw [Dict.keys, hedges, List.map_append, List.map_map, Dict.keys, List.filter_map]
    rfl
  rw [Edge, hkeys, List.mem_append, List.mem_filter, List.mem_map, decide_eq_true_eq]
  constructor
  · intro h
    rcases h with ⟨hxy, hx, hy⟩ | ⟨p, hp, heq⟩
    · exact ⟨hx, hy, .inl hxy⟩
    · obtain ⟨rfl, rfl⟩ := Prod.mk.inj heq
      have hp := mem_predecessors.mp hp
      exact ⟨hG.ne_of_edge hp, (hG.ne_of_edge hedge).symm, .inr ⟨hp, hedge, rfl⟩⟩
  · intro h
    obtain ⟨hx, hy, hxy | ⟨hxold, -, rfl⟩⟩ := h
    · exact .inl ⟨hxy, hx, hy⟩
    · exact .inr ⟨x, mem_predecessors.mpr hxold, rfl⟩

/-- **A node taken out, its children handed to its parent.** -/
theorem removeNodeKeepChildren_bypasses {node : Nat} (hnode : node ∈ G) :
    ∃ G', removeNodeKeepChildren G node = some G' ∧ Bypasses G' G node fun _ => True := by
  obtain ⟨hnodes, hlinked⟩ := foldl_linkNodes (G.predecessors node ×ˢ G.successors node) G
    fun e he => by
      obtain ⟨hp, hs⟩ := List.mem_product.mp he
      exact ⟨(mem_predecessors.mp hp).left, (mem_successors.mp hs).right⟩
  have hmem : node ∈ (G.predecessors node ×ˢ G.successors node).foldl linkNodes G := by
    rw [mem_iff, hnodes]
    exact hnode
  refine ⟨_, by rw [removeNodeKeepChildren, if_pos hnode, removeNode_of_mem hmem], ?_, ?_⟩
  · rw [entries_removeNodesFrom, hnodes]
    simp
  · intro x y
    rw [edge_removeNodesFrom, hlinked, List.mem_product, mem_predecessors, mem_successors]
    simp only [Finset.mem_singleton]
    tauto

end Changes

/-! ## A read of an extract -/

section ReadOfExtract

variable {G : KqueryGraph}

/-- What the search of the first pass has found: a read below some node, with an extract as operand
that has a 64-bit operand in turn. -/
theorem readOfExtract_eq_some {n node e32Node w64Child : Nat}
    (h : readOfExtract G n = some (node, e32Node, w64Child)) : n = node ∧ G.inDegree node ≠ 0 ∧
      isReadlsbW64 G node = true ∧ (G.Edge node e32Node ∧ isExtractW32 G e32Node = true) ∧
      G.Edge e32Node w64Child ∧ isTypeW64 G w64Child = true := by
  obtain ⟨hdegree, h⟩ := guard_bind_eq_some.mp h
  obtain ⟨hread, h⟩ := guard_bind_eq_some.mp h
  obtain ⟨e, he, h⟩ := Option.bind_eq_some_iff.mp h
  obtain ⟨w, hw, h⟩ := Option.bind_eq_some_iff.mp h
  obtain ⟨-, h⟩ := guard_bind_eq_some.mp h
  obtain ⟨rfl, rfl, rfl⟩ : n = node ∧ e = e32Node ∧ w = w64Child := by simpa using h
  exact ⟨rfl, hdegree, hread,
    ⟨mem_successors.mp (List.mem_of_find?_eq_some he), List.find?_some he⟩,
    mem_successors.mp (List.mem_of_find?_eq_some hw), List.find?_some hw⟩

/-- **A grandchild in the place of its grandparent**, after all that is below their other children is
gone. -/
theorem promote_grandchild (hG : G.IsForest) {node e w : Nat} (hne : G.Edge node e) (hew : G.Edge e w) :
    ∃ G₁ G', rewireParentToChild (((G.successors e).filter (· ≠ w)).foldl removeSubtree
      (((G.successors node).filter (· ≠ e)).foldl removeSubtree G)) e w = some G₁ ∧
      rewireParentToChild G₁ node w = some G' ∧ Promotes G' G node w := by
  obtain ⟨vs, hvs, hmem⟩ := foldl_removeSubtree
    (((G.successors node).filter (· ≠ e)) ++ ((G.successors e).filter (· ≠ w))) G
  rw [List.foldl_append] at hvs
  rw [hvs]
  have hroot : ∀ {r}, r ∈ ((G.successors node).filter (· ≠ e)) ++ ((G.successors e).filter (· ≠ w)) ↔
      G.Edge node r ∧ r ≠ e ∨ G.Edge e r ∧ r ≠ w := by
    intro r
    simp only [List.mem_append, List.mem_filter, mem_successors, decide_eq_true_eq]
  simp only [hroot] at hmem
  have hclosed : ∀ {x y}, x ∈ vs → G.Edge x y → y ∈ vs := by
    intro x y hx hxy
    obtain ⟨r, hr, hrG, hrx⟩ := (hmem x).mp hx
    exact (hmem y).mpr ⟨r, hr, hrG, hrx.trans (.of_edge hxy)⟩
  have hwvs : w ∉ vs := by
    intro hw
    obtain ⟨r, hr | hr, -, hrw⟩ := (hmem w).mp hw
    · exact hG.disjoint hr.1 hne hr.2 hrw (.of_edge hew)
    · exact hG.disjoint hr.1 hew hr.2 hrw (.refl _)
  have hevs : e ∉ vs := fun he => hwvs (hclosed he hew)
  have hnvs : node ∉ vs := fun hn => hevs (hclosed hn hne)
  have hH := hG.removeNodesFrom vs
  have hne' : (G.removeNodesFrom vs).Edge node e := edge_removeNodesFrom.mpr ⟨hne, hnvs, hevs⟩
  have hew' : (G.removeNodesFrom vs).Edge e w := edge_removeNodesFrom.mpr ⟨hew, hevs, hwvs⟩
  have honly : ∀ {c}, (G.removeNodesFrom vs).Edge e c → c = w := by
    intro c hc
    obtain ⟨hec, -, hcvs⟩ := edge_removeNodesFrom.mp hc
    by_contra hcw
    exact hcvs ((hmem c).mpr ⟨c, .inr ⟨hec, hcw⟩, hec.right, .refl _⟩)
  obtain ⟨G₁, hG₁, hP₁⟩ := rewireParentToChild_promotes hH hew' honly
  have hF₁ := hP₁.isForest hH hew'.left (.of_edge hew') (hH.ne_of_edge hew')
  have hnw : G₁.Edge node w := hP₁.edge.mpr (.inr ⟨hne', rfl⟩)
  have honly₁ : ∀ {c}, G₁.Edge node c → c = w := by
    intro c hc
    rcases hP₁.edge.mp hc with ⟨hc, -, hspared⟩ | ⟨-, rfl⟩
    · obtain ⟨hnc, -, hcvs⟩ := edge_removeNodesFrom.mp hc
      by_cases hce : c = e
      · rw [hce, spared_iff hew'.left (.of_edge hew')] at hspared
        exact absurd (hspared (.refl _)) (hH.not_below_of_edge hew')
      · exact absurd ((hmem c).mpr ⟨c, .inl ⟨hnc, hce⟩, hnc.right, .refl _⟩) hcvs
    · rfl
  obtain ⟨G', hG', hP'⟩ := rewireParentToChild_promotes hF₁ hnw honly₁
  have hP := hP₁.trans hP' hH hne'.left (.of_edge hne') (.of_edge hew') (hH.ne_of_edge hne')
  have hnwG : G.Below node w := (Below.of_edge hne).trans (.of_edge hew)
  refine ⟨G₁, G', hG₁, hG', hP.of_removeNodesFrom hne.left hnwG hclosed (fun {x} hx => ?_) hnvs⟩
  obtain ⟨r, hr | hr, -, hrx⟩ := (hmem x).mp hx
  · exact ⟨(Below.of_edge hr.1).trans hrx, fun hwx =>
      hG.disjoint hr.1 hne hr.2 hrx ((Below.of_edge hew).trans hwx)⟩
  · exact ⟨((Below.of_edge hne).trans (.of_edge hr.1)).trans hrx, fun hwx =>
      hG.disjoint hr.1 hew hr.2 hrx hwx⟩

/-- **`process_graph` on a forest** raises nothing. It changes the graph exactly if there is a read of an
extract; then what is kept of one comes in its place and the rest is as it was. -/
theorem processGraph_eq (hG : G.IsForest) : ∃ G' changed, processGraph G = some (G', changed) ∧
    (changed = false → G' = G ∧ ∀ n ∈ G, readOfExtract G n = none) ∧
    (changed = true → ∃ node e32Node w64Child, node ∈ G ∧
      readOfExtract G node = some (node, e32Node, w64Child) ∧ Promotes G' G node w64Child) := by
  unfold processGraph
  split
  · rename_i hnone
    exact ⟨G, false, rfl, fun _ => ⟨rfl, fun n hn => List.findSome?_eq_none_iff.mp hnone n hn⟩,
      fun h => Bool.noConfusion h⟩
  · rename_i node e32Node w64Child hsome
    obtain ⟨n, hn, hread⟩ := List.exists_of_findSome?_eq_some hsome
    obtain ⟨rfl, -, -, ⟨hne, -⟩, hew, -⟩ := readOfExtract_eq_some hread
    obtain ⟨G₁, G', hG₁, hG', hP⟩ := promote_grandchild hG hne hew
    refine ⟨G', true, ?_, fun h => Bool.noConfusion h, fun _ => ⟨n, e32Node, w64Child, hn, hread, hP⟩⟩
    simp only [hG₁, hG', Option.bind_eq_bind, Option.bind_some]
    rfl

end ReadOfExtract

/-! ## An extract with a leaf -/

section ExtractWithLeaf

variable {G : KqueryGraph}

/-- What the search of the second pass has found: an extract of two operands, one of which is a
leaf. -/
theorem extractWithLeaf_eq_some {n node singleSubtree keepChild : Nat}
    (h : extractWithLeaf G n = some (node, singleSubtree, keepChild)) : n = node ∧
      isEmptyTypeExtractNode G node = true ∧ G.Edge node singleSubtree ∧ G.Edge node keepChild ∧
      singleSubtree ≠ keepChild ∧ G.successors singleSubtree = [] ∧
      ∀ {c}, G.Edge node c → c = singleSubtree ∨ c = keepChild := by
  obtain ⟨hempty, h⟩ := guard_bind_eq_some.mp h
  split at h
  · rename_i childA childB hchildren
    obtain ⟨⟨s, k⟩, hsk, h⟩ := Option.bind_eq_some_iff.mp h
    obtain ⟨-, h⟩ := guard_bind_eq_some.mp h
    obtain ⟨rfl, rfl, rfl⟩ : n = node ∧ s = singleSubtree ∧ k = keepChild := by simpa using h
    have hedge : ∀ {c}, G.Edge n c ↔ c = childA ∨ c = childB := by
      intro c
      rw [← mem_successors, hchildren]
      simp
    have hne : childA ≠ childB := by
      have hnodup := successors_nodup G n
      rw [hchildren] at hnodup
      simpa using hnodup
    unfold singleAndKeep at hsk
    split at hsk
    · rename_i hleaf
      obtain ⟨rfl, rfl⟩ : childA = s ∧ childB = k := by simpa using hsk
      exact ⟨rfl, hempty, hedge.mpr (.inl rfl), hedge.mpr (.inr rfl), hne,
        by simpa [isSingleNodeSubtree] using hleaf, hedge.mp⟩
    · split at hsk
      · rename_i hleaf
        obtain ⟨rfl, rfl⟩ : childB = s ∧ childA = k := by simpa using hsk
        exact ⟨rfl, hempty, hedge.mpr (.inr rfl), hedge.mpr (.inl rfl), hne.symm,
          by simpa [isSingleNodeSubtree] using hleaf, fun h => (hedge.mp h).symm⟩
      · cases hsk
  · cases h

/-- **`process_extract_with_single_node_subtree` on a forest.** -/
theorem processExtractWithSingleNodeSubtree_eq (hG : G.IsForest) : ∃ G' changed,
    processExtractWithSingleNodeSubtree G = some (G', changed) ∧
    (changed = false → G' = G ∧ ∀ n ∈ G, extractWithLeaf G n = none) ∧
    (changed = true → ∃ node singleSubtree keepChild, node ∈ G ∧
      extractWithLeaf G node = some (node, singleSubtree, keepChild) ∧ Promotes G' G node keepChild) := by
  unfold processExtractWithSingleNodeSubtree
  split
  · rename_i hnone
    exact ⟨G, false, rfl, fun _ => ⟨rfl, fun n hn => List.findSome?_eq_none_iff.mp hnone n hn⟩,
      fun h => Bool.noConfusion h⟩
  · rename_i node s k hsome
    obtain ⟨n, hn, hleaf⟩ := List.exists_of_findSome?_eq_some hsome
    obtain ⟨rfl, -, hns, hnk, hsk, -, honly⟩ := extractWithLeaf_eq_some hleaf
    have hcut : G.removeSubtree s = G.removeNodesFrom (G.below s) := if_pos hns.right
    have hclosed : ∀ {x y}, x ∈ G.below s → G.Edge x y → y ∈ G.below s := by
      intro x y hx hxy
      rw [mem_below hns.right] at hx ⊢
      exact hx.trans (.of_edge hxy)
    have hk : k ∉ G.below s := by
      rw [mem_below hns.right]
      exact fun h => hG.disjoint hns hnk hsk h (.refl _)
    have hn' : n ∉ G.below s := fun h => hk (hclosed h hnk)
    have hedge : (G.removeNodesFrom (G.below s)).Edge n k := edge_removeNodesFrom.mpr ⟨hnk, hn', hk⟩
    obtain ⟨G', hG', hP⟩ := rewireParentToChild_promotes (hG.removeNodesFrom _) hedge fun {c} hc => by
      obtain ⟨hnc, -, hcs⟩ := edge_removeNodesFrom.mp hc
      rcases honly hnc with rfl | rfl
      · exact absurd ((mem_below hns.right).mpr (.refl _)) hcs
      · rfl
    refine ⟨G', true, ?_, fun h => Bool.noConfusion h, fun _ => ⟨n, s, k, hn, hleaf, ?_⟩⟩
    · simp only [hcut, hG', Option.bind_eq_bind, Option.bind_some]
      rfl
    · refine hP.of_removeNodesFrom hn (.of_edge hnk) hclosed (fun {x} hx => ?_) hn'
      rw [mem_below hns.right] at hx
      exact ⟨(Below.of_edge hns).trans hx, hG.disjoint hns hnk hsk hx⟩

end ExtractWithLeaf

/-! ## An extension of an equation -/

section RootZextOfEq

variable {G : KqueryGraph}

/-- What the search of the last pass has found: an extension at the root over a comparison alone. -/
theorem rootZextOfEq_eq_some {n node : Nat} (h : rootZextOfEq G n = some node) : n = node ∧
    (∀ p, ¬ G.Edge p node) ∧ isZextNode G node = true ∧
      ∃ eqNode, G.successors node = [eqNode] ∧ G.label eqNode = some "Eq" := by
  obtain ⟨⟨hdegree, hzext⟩, h⟩ := guard_bind_eq_some.mp h
  split at h
  · rename_i eqNode hchildren
    split at h
    · rename_i heq
      obtain rfl := Option.some.inj h
      refine ⟨rfl, fun p hp => ?_, hzext, eqNode, hchildren, heq⟩
      rw [← mem_predecessors, List.length_eq_zero_iff.mp hdegree] at hp
      cases hp
    · cases h
  · cases h

/-- **`process_root_zext_eq_only` on a forest.** -/
theorem processRootZextEqOnly_eq (hG : G.IsForest) : ∃ G' changed,
    processRootZextEqOnly G = some (G', changed) ∧ G'.IsForest ∧ Prunes G' G ∧
    (changed = false → G' = G ∧ ∀ n ∈ G, rootZextOfEq G n = none) ∧
    (changed = true → ∃ node ∈ G, rootZextOfEq G node = some node ∧ Restricts G' G (· ≠ node)) := by
  unfold processRootZextEqOnly
  split
  · rename_i hnone
    exact ⟨G, false, rfl, hG, .refl G,
      fun _ => ⟨rfl, fun n hn => List.findSome?_eq_none_iff.mp hnone n hn⟩, fun h => Bool.noConfusion h⟩
  · rename_i node hsome
    obtain ⟨n, hn, hzext⟩ := List.exists_of_findSome?_eq_some hsome
    obtain rfl := (rootZextOfEq_eq_some hzext).1
    obtain ⟨G', hG', hB⟩ := removeNodeKeepChildren_bypasses hn
    refine ⟨G', true, ?_, hB.isForest hG, hB.prunes hG, fun h => Bool.noConfusion h,
      fun _ => ⟨n, hn, hzext, hB.restricts hG fun _ => trivial⟩⟩
    rw [hG']
    rfl

end RootZextOfEq

/-! ## An extract of a sum with an extension -/

section ExtractOfAdd

variable {G : KqueryGraph}

/-- What the search of the fourth pass has found. The extract must have two operands at least, one
of them the only sum, and the sum only one extension. -/
theorem extractOfAdd_eq_some {n extractNode addNode sextNode : Nat}
    (h : extractOfAdd G n = some (extractNode, addNode, sextNode)) : n = extractNode ∧
      isExtractNode G extractNode = true ∧ 2 ≤ (G.successors extractNode).length ∧
      (G.successors extractNode).filter (isAddNode G) = [addNode] ∧
      (G.successors addNode).filter (isZextNode G) = [sextNode] := by
  obtain ⟨hextract, h⟩ := guard_bind_eq_some.mp h
  obtain ⟨htwo, h⟩ := guard_bind_eq_some.mp h
  split at h
  · rename_i add hadd
    split at h
    · rename_i sext hsext
      obtain ⟨rfl, rfl, rfl⟩ : n = extractNode ∧ add = addNode ∧ sext = sextNode := by simpa using h
      exact ⟨rfl, hextract, htwo, hadd, hsext⟩
    · cases h
  · cases h

/-- The one member that a filter leaves. -/
theorem mem_of_filter_eq_singleton {α : Type*} {l : List α} {p : α → Bool} {a : α}
    (h : l.filter p = [a]) : a ∈ l :=
  (List.mem_filter.mp (h ▸ List.mem_singleton_self a)).1

/-- The first child takes the place of its parent, and then the parent is gone. -/
theorem foldlM_rewire (hG : G.IsForest) (oldNode : Nat) : ∃ G',
    (G.successors oldNode).foldlM (fun G sc => rewireParentToChild G oldNode sc) G = some G' ∧
      (G.successors oldNode = [] ∧ G' = G ∨
        ∃ first rest, G.successors oldNode = first :: rest ∧ Bypasses G' G oldNode (· = first)) := by
  cases hchildren : G.successors oldNode with
  | nil => exact ⟨G, rfl, .inl ⟨rfl, rfl⟩⟩
  | cons first rest =>
    have hedge : G.Edge oldNode first := mem_successors.mp (hchildren ▸ List.mem_cons_self)
    obtain ⟨G', hG', hB⟩ := rewireParentToChild_bypasses hG hedge
    have hgone : oldNode ∉ G' := fun h => (hB.mem.mp h).2 rfl
    have hrest : ∀ rest : List Nat,
        rest.foldlM (fun G sc => rewireParentToChild G oldNode sc) G' = some G' := by
      intro rest
      induction rest with
      | nil => rfl
      | cons sc rest ih =>
        rw [List.foldlM_cons, rewireParentToChild, if_neg hgone]
        exact ih
    refine ⟨G', ?_, .inr ⟨first, rest, rfl, hB⟩⟩
    rw [List.foldlM_cons, hG']
    exact hrest rest

/-- The nodes `vs` are the subtrees of all operands of a node but one. -/
def OtherOperands (G : KqueryGraph) (node operand : Nat) (vs : Finset Nat) : Prop :=
  ∀ x, x ∈ vs ↔ ∃ r, (G.Edge node r ∧ r ≠ operand) ∧ r ∈ G ∧ G.Below r x

section OtherOperands

variable {n addNode : Nat} {vs : Finset Nat}

/-- Whatever lies below a removed node is removed too, so no node is left without the one above it.
-/
theorem OtherOperands.closed (h : OtherOperands G n addNode vs) {x y : Nat} (hx : x ∈ vs) (hxy : G.Edge x y) : y ∈ vs := by
  obtain ⟨r, hr, hrG, hrx⟩ := (h x).mp hx
  exact (h y).mpr ⟨r, hr, hrG, hrx.trans (.of_edge hxy)⟩

/-- The one operand keeps its subtree. -/
theorem OtherOperands.not_mem (h : OtherOperands G n addNode vs) (hG : G.IsForest) (hna : G.Edge n addNode) {x : Nat}
    (hx : G.Below addNode x) : x ∉ vs := by
  intro hxvs
  obtain ⟨r, hr, -, hrx⟩ := (h x).mp hxvs
  exact hG.disjoint hr.1 hna hr.2 hrx hx

/-- The extract itself is not removed: it lies above what is, and in a forest nothing lies below
itself. -/
theorem OtherOperands.root_not_mem (h : OtherOperands G n addNode vs) (hG : G.IsForest) (hna : G.Edge n addNode) :
    n ∉ vs := fun hn => h.not_mem hG hna (.refl _) (h.closed hn hna)

/-- What is left without them and without the node itself. -/
theorem OtherOperands.kept_iff (h : OtherOperands G n addNode vs) (hG : G.IsForest) (hna : G.Edge n addNode) {x : Nat} :
    x ∉ vs ∧ x ≠ n ↔ (G.Below n x → G.Below addNode x) := by
  constructor
  · intro hx hnx
    obtain ⟨c, hnc, hcx⟩ := hnx.eq_or_child.resolve_left hx.2.symm
    by_cases hc : c = addNode
    · exact hc ▸ hcx
    · exact absurd ((h x).mpr ⟨c, ⟨hnc, hc⟩, hnc.right, hcx⟩) hx.1
  · intro hx
    refine ⟨fun hxvs => ?_, ?_⟩
    · obtain ⟨r, hr, -, hrx⟩ := (h x).mp hxvs
      exact h.not_mem hG hna (hx ((Below.of_edge hr.1).trans hrx)) hxvs
    · rintro rfl
      exact hG.not_below_of_edge hna (hx (.refl _))

/-- Without them the one operand is the only one. -/
theorem OtherOperands.only_child (h : OtherOperands G n addNode vs) {c : Nat} (hc : (G.removeNodesFrom vs).Edge n c) :
    c = addNode := by
  obtain ⟨hnc, -, hcvs⟩ := edge_removeNodesFrom.mp hc
  by_contra hne
  exact hcvs ((h c).mpr ⟨c, ⟨hnc, hne⟩, hnc.right, .refl _⟩)

/-- Below the sum nothing is removed, so its operands are as they were. -/
theorem OtherOperands.successors_eq (h : OtherOperands G n addNode vs) (hG : G.IsForest) (hna : G.Edge n addNode) {x : Nat}
    (hx : G.Below addNode x) : (G.removeNodesFrom vs).successors x = G.successors x := by
  rw [successors_removeNodesFrom (h.not_mem hG hna hx), List.filter_eq_self.mpr]
  intro c hc
  have hc := h.not_mem hG hna (hx.trans (.of_edge (mem_successors.mp hc)))
  simpa using hc

end OtherOperands

/-- Where the extension is taken out under an only operand, this one stays the only operand. -/
theorem rewired_only_child {H G₁ : KqueryGraph} {n addNode sextNode : Nat} (hH : H.IsForest) (hna : H.Edge n addNode)
    (has : H.Edge addNode sextNode) (honly : ∀ {c}, H.Edge n c → c = addNode)
    (hcases : H.successors sextNode = [] ∧ G₁ = H ∨
      ∃ first rest, H.successors sextNode = first :: rest ∧ Bypasses G₁ H sextNode (· = first)) :
    G₁.IsForest ∧ Prunes G₁ H ∧ G₁.Edge n addNode ∧ (∀ {c}, G₁.Edge n c → c = addNode) ∧
      ∀ x, x ∈ G₁ ↔ x ∈ H ∧ (x = sextNode → H.successors sextNode = []) := by
  rcases hcases with ⟨hnil, rfl⟩ | ⟨first, rest, hcons, hB⟩
  · exact ⟨hH, .refl _, hna, honly, fun x => by simp [hnil]⟩
  · have hns : n ≠ sextNode := by
      rintro rfl
      exact hH.not_below_of_edge hna (.of_edge has)
    refine ⟨hB.isForest hH, hB.prunes hH, ?_, ?_, fun x => ?_⟩
    · exact hB.edge.mpr ⟨hns, hH.ne_of_edge has, .inl hna⟩
    · intro c hc
      obtain ⟨-, -, hnc | ⟨hns', -⟩⟩ := hB.edge.mp hc
      · exact honly hnc
      · have heq : sextNode = addNode := honly hns'
        exact absurd heq (hH.ne_of_edge has).symm
    · rw [hB.mem, hcons]
      simp

/-- **`process_graph_sub` on a forest** raises nothing. It changes the graph exactly if there is an extract
of a sum with an extension; then the other operands of the extract, the extract and the extension are gone.
The rest is below one another as it was if the extension has one operand. -/
theorem processGraphSub_eq (hG : G.IsForest) : ∃ G' changed,
    processGraphSub G = some (G', changed) ∧ G'.IsForest ∧ Prunes G' G ∧
    (changed = false → G' = G ∧ ∀ n ∈ G, extractOfAdd G n = none) ∧
    (changed = true → ∃ extractNode addNode sextNode, extractNode ∈ G ∧
      extractOfAdd G extractNode = some (extractNode, addNode, sextNode) ∧
      (∀ x, x ∈ G' ↔ x ∈ G ∧ (G.Below extractNode x → G.Below addNode x) ∧
        (x = sextNode → G.successors sextNode = [])) ∧
      ∀ operand, G.successors sextNode = [operand] → Restricts G' G fun x =>
        (G.Below extractNode x → G.Below addNode x) ∧ x ≠ sextNode) := by
  unfold processGraphSub
  split
  · rename_i hnone
    exact ⟨G, false, rfl, hG, .refl G,
      fun _ => ⟨rfl, fun n hn => List.findSome?_eq_none_iff.mp hnone n hn⟩, fun h => Bool.noConfusion h⟩
  · rename_i extractNode addNode sextNode hsome
    obtain ⟨n, hn, hfound⟩ := List.exists_of_findSome?_eq_some hsome
    obtain ⟨rfl, -, -, hadd, hsext⟩ := extractOfAdd_eq_some hfound
    have hna : G.Edge n addNode := mem_successors.mp (mem_of_filter_eq_singleton hadd)
    have has : G.Edge addNode sextNode := mem_successors.mp (mem_of_filter_eq_singleton hsext)
    -- the other operands of the extract
    obtain ⟨vs, hvs, hmem⟩ := foldl_removeSubtree ((G.successors n).filter (· ≠ addNode)) G
    simp only [List.mem_filter, mem_successors, decide_eq_true_eq] at hmem
    have hothers : OtherOperands G n addNode vs := hmem
    have hH := hG.removeNodesFrom vs
    have havs := hothers.not_mem hG hna (.refl _)
    have hna' : (G.removeNodesFrom vs).Edge n addNode :=
      edge_removeNodesFrom.mpr ⟨hna, hothers.root_not_mem hG hna, havs⟩
    have has' : (G.removeNodesFrom vs).Edge addNode sextNode :=
      edge_removeNodesFrom.mpr ⟨has, havs, hothers.not_mem hG hna (.of_edge has)⟩
    have hsuccessors := hothers.successors_eq hG hna (.of_edge has)
    -- the extension
    obtain ⟨G₁, hG₁, hcases⟩ := foldlM_rewire hH sextNode
    obtain ⟨hF₁, hP₁, hedge₁, honly₁, hmem₁⟩ := rewired_only_child hH hna' has' hothers.only_child hcases
    rw [hsuccessors] at hG₁ hcases
    -- the extract
    obtain ⟨G', hG', hB'⟩ := rewireParentToChild_bypasses hF₁ hedge₁
    refine ⟨G', true, ?_, hB'.isForest hF₁, ((prunes_removeNodesFrom hG vs).trans hP₁).trans (hB'.prunes hF₁),
      fun h => Bool.noConfusion h, fun _ => ⟨n, addNode, sextNode, hn, hfound, fun x => ?_, ?_⟩⟩
    · simp only [hvs, hG₁, hG', Option.bind_eq_bind, Option.bind_some]
      rfl
    · rw [hB'.mem, hmem₁, mem_removeNodesFrom, hsuccessors, ← hothers.kept_iff hG hna]
      tauto
    · intro operand hoperand
      have hB : Bypasses G₁ (G.removeNodesFrom vs) sextNode (· = operand) := by
        rcases hcases with ⟨hnil, -⟩ | ⟨first, rest, hcons, hB⟩
        · rw [hnil] at hoperand
          cases hoperand
        · obtain ⟨rfl, -⟩ := List.cons.inj (hcons.symm.trans hoperand)
          exact hB
      have hR := hB.restricts hH fun {c} hc => by
        rw [← mem_successors, hsuccessors, hoperand, List.mem_singleton] at hc
        exact hc
      have hR' := hB'.restricts hF₁ fun h => honly₁ h
      refine (((restricts_removeNodesFrom hothers.closed).trans hR).trans hR').congr fun x hx => ?_
      rw [← hothers.kept_iff hG hna]
      tauto

end ExtractOfAdd

/-! ## An extract of two extended branches -/

section Zext

variable {G : KqueryGraph}

/-- There is an extension in the subtree. -/
def HasZext (G : KqueryGraph) (root : Nat) : Prop := ∃ x, G.Below root x ∧ isZextNode G x = true

/-- The search below a node always ends, and finds an extension exactly if there is one. -/
theorem subtreeContainsZext_eq {root : Nat} (hroot : root ∈ G) :
    ∃ found, subtreeContainsZext G root = some found ∧ (found = true ↔ HasZext G root) := by
  have hnodes : ∀ v, Reach G.successors root v → v ∈ G.nodes.keys.toFinset := fun v hv =>
    List.mem_toFinset.mpr (Below.mem_of_left hv hroot)
  obtain ⟨found, hfound, hiff⟩ := StackSearch.search_eq (p := isZextNode G) G.nodes.keys.toFinset hnodes
  rw [sum_successors] at hfound
  exact ⟨found, by rw [subtreeContainsZext, if_pos hroot, hfound], hiff⟩

/-- Two operands of an operand of the root, its first two, have an extension in them. -/
def TwoZextBranches (G : KqueryGraph) (root : Nat) : Prop :=
  ∃ subroot left right rest, G.Edge root subroot ∧ G.successors subroot = left :: right :: rest ∧
    HasZext G left ∧ HasZext G right

/-- The test looks at the first two operands alone and is false where there are fewer. -/
theorem firstTwoContainZext_eq (G : KqueryGraph) (subroot : Nat) :
    ∃ found, firstTwoContainZext G subroot = some found ∧ (found = true ↔
      ∃ left right rest, G.successors subroot = left :: right :: rest ∧ HasZext G left ∧
        HasZext G right) := by
  unfold firstTwoContainZext
  split
  · rename_i left right rest hchildren
    have hmem : ∀ c ∈ left :: right :: rest, c ∈ G := fun c hc =>
      (mem_successors.mp (hchildren ▸ hc)).right
    obtain ⟨a, ha, haiff⟩ := subtreeContainsZext_eq (hmem left (by simp))
    obtain ⟨b, hb, hbiff⟩ := subtreeContainsZext_eq (hmem right (by simp))
    refine ⟨a && b, ?_, ?_⟩
    · cases a <;> simp [ha, hb]
    · rw [Bool.and_eq_true, haiff, hbiff]
      constructor
      · exact fun h => ⟨left, right, rest, hchildren, h⟩
      · intro h
        obtain ⟨l, r, rs, heq, h⟩ := h
        obtain ⟨rfl, rfl, -⟩ : left = l ∧ right = r ∧ rest = rs := by simpa using hchildren.symm.trans heq
        exact h
  · rename_i hshort
    refine ⟨false, rfl, fun h => Bool.noConfusion h, ?_⟩
    intro h
    obtain ⟨l, r, rs, heq, -⟩ := h
    exact absurd heq (hshort l r rs)

/-- The outer search ends as well, and finds exactly the nodes that it should be looking for. -/
theorem findSubtreeWithTwoZextBranches_eq (G : KqueryGraph) (root : Nat) :
    ∃ found, findSubtreeWithTwoZextBranches G root = some found ∧
      (found = true ↔ TwoZextBranches G root) := by
  have hany : ∀ cs : List Nat, ∃ found, cs.anyM (firstTwoContainZext G) = some found ∧
      (found = true ↔ ∃ subroot ∈ cs, ∃ left right rest, G.successors subroot = left :: right :: rest ∧
        HasZext G left ∧ HasZext G right) := by
    intro cs
    induction cs with
    | nil => exact ⟨false, rfl, by simp⟩
    | cons c cs ih =>
      obtain ⟨a, ha, haiff⟩ := firstTwoContainZext_eq G c
      obtain ⟨b, hb, hbiff⟩ := ih
      refine ⟨a || b, ?_, ?_⟩
      · rw [List.anyM, ha]
        cases a with
        | false => exact hb
        | true => rfl
      · rw [Bool.or_eq_true, haiff, hbiff]
        simp
  obtain ⟨found, hfound, hiff⟩ := hany (G.successors root)
  refine ⟨found, hfound, hiff.trans ?_⟩
  constructor
  · intro h
    obtain ⟨subroot, hsub, left, right, rest, h⟩ := h
    exact ⟨subroot, left, right, rest, mem_successors.mp hsub, h⟩
  · intro h
    obtain ⟨subroot, left, right, rest, hsub, h⟩ := h
    exact ⟨subroot, mem_successors.mpr hsub, left, right, rest, h⟩

/-- The label of what is left. -/
theorem isZextNode_of_prunes {G' : KqueryGraph} (h : Prunes G' G) {x : Nat} (hx : x ∈ G') :
    isZextNode G' x = isZextNode G x := by
  rw [isZextNode, isZextNode, KqueryGraph.label, KqueryGraph.label, h.get? hx]

/-- **The operands without an extension are taken out**, each with all that is below it. -/
theorem foldlM_removeZextFree (root : Nat) : ∀ (cs : List Nat) {G : KqueryGraph}, G.IsForest → cs.Nodup →
    (∀ c ∈ cs, G.Edge root c) → ∃ vs : Finset Nat, cs.foldlM removeZextFree G =
      some (G.removeNodesFrom vs) ∧ ∀ x, x ∈ vs ↔ ∃ c ∈ cs, ¬ HasZext G c ∧ G.Below c x
  | [], G, _, _, _ => ⟨∅, by rw [removeNodesFrom_empty]; rfl, by simp⟩
  | c :: cs, G, hG, hnodup, hedges => by
    have hc : G.Edge root c := hedges c List.mem_cons_self
    obtain ⟨hccs, hnodup⟩ := List.nodup_cons.mp hnodup
    obtain ⟨found, hfound, hiff⟩ := subtreeContainsZext_eq hc.right
    cases found with
    | true =>
      obtain ⟨vs, hvs, hmem⟩ := foldlM_removeZextFree root cs hG hnodup fun c' hc' =>
        hedges c' (List.mem_cons_of_mem _ hc')
      refine ⟨vs, ?_, fun x => ?_⟩
      · have hstep : removeZextFree G c = some G := by
          rw [removeZextFree, hfound]
          rfl
        rw [List.foldlM_cons, hstep]
        exact hvs
      · simp [hmem, hiff.mp rfl]
    | false =>
      have hfree : ¬ HasZext G c := fun h => Bool.noConfusion (hiff.mpr h)
      have hclosed : ∀ {x y}, x ∈ G.below c → G.Edge x y → y ∈ G.below c := by
        intro x y hx hxy
        rw [mem_below hc.right] at hx ⊢
        exact hx.trans (.of_edge hxy)
      have hcut : G.removeSubtree c = G.removeNodesFrom (G.below c) := if_pos hc.right
      -- what is below the other operands stays
      have hother : ∀ c' ∈ cs, ∀ {x}, G.Below c' x → x ∉ G.below c := by
        intro c' hc' x hx hxc
        rw [mem_below hc.right] at hxc
        have hne : c' ≠ c := fun h => hccs (h ▸ hc')
        exact hG.disjoint (hedges c' (List.mem_cons_of_mem _ hc')) hc hne hx hxc
      have hroot : root ∉ G.below c := by
        rw [mem_below hc.right]
        exact hG.not_below_of_edge hc
      obtain ⟨vs, hvs, hmem⟩ := foldlM_removeZextFree root cs (hG.removeNodesFrom (G.below c))
        hnodup fun c' hc' => edge_removeNodesFrom.mpr
          ⟨hedges c' (List.mem_cons_of_mem _ hc'), hroot, hother c' hc' (.refl _)⟩
      have hbelow : ∀ c' ∈ cs, ∀ x, (G.removeNodesFrom (G.below c)).Below c' x ↔ G.Below c' x := by
        intro c' hc' x
        constructor
        · exact (prunes_removeNodesFrom hG _).below
        · exact fun h => (below_removeNodesFrom hclosed (hother c' hc' h)).mpr h
      have hzext : ∀ c' ∈ cs, (HasZext (G.removeNodesFrom (G.below c)) c' ↔ HasZext G c') := by
        intro c' hc'
        have hlabel : ∀ {x}, G.Below c' x → isZextNode (G.removeNodesFrom (G.below c)) x = isZextNode G x :=
          fun hx => isZextNode_of_prunes (prunes_removeNodesFrom hG _) (mem_removeNodesFrom.mpr
            ⟨hx.mem_of_left (hedges c' (List.mem_cons_of_mem _ hc')).right, hother c' hc' hx⟩)
        apply exists_congr
        intro x
        rw [hbelow c' hc']
        exact and_congr_right fun hx => by rw [hlabel hx]
      refine ⟨G.below c ∪ vs, ?_, fun x => ?_⟩
      · have hstep : removeZextFree G c = some (G.removeNodesFrom (G.below c)) := by
          rw [removeZextFree, hfound, ← hcut]
          rfl
        rw [List.foldlM_cons, hstep, ← removeNodesFrom_removeNodesFrom]
        exact hvs
      · rw [Finset.mem_union, mem_below hc.right, hmem, List.exists_mem_cons_iff]
        refine or_congr (by simp [hfree]) (exists_congr fun c' => and_congr_right fun hc' => ?_)
        rw [hzext c' hc', hbelow c' hc']

/-- Nodes taken out one after the other, their children handed on. -/
theorem foldlM_removeNodeKeepChildren : ∀ (zs : List Nat) {G : KqueryGraph}, G.IsForest →
    ∃ G', zs.foldlM removeNodeKeepChildren G = some G' ∧ G'.IsForest ∧ Prunes G' G ∧
      Restricts G' G (· ∉ zs)
  | [], G, hG => ⟨G, rfl, hG, .refl G, .refl _, by simp, fun _ _ => Iff.rfl⟩
  | z :: zs, G, hG => by
    by_cases hz : z ∈ G
    · obtain ⟨G₁, hG₁, hB⟩ := removeNodeKeepChildren_bypasses hz
      obtain ⟨G', hG', hF, hP, hR⟩ := foldlM_removeNodeKeepChildren zs (hB.isForest hG)
      refine ⟨G', by rw [List.foldlM_cons, hG₁]; exact hG', hF, (hB.prunes hG).trans hP, ?_⟩
      refine ((hB.restricts hG fun _ => trivial).trans hR).congr fun x _ => ?_
      simp
    · obtain ⟨G', hG', hF, hP, hR⟩ := foldlM_removeNodeKeepChildren zs hG
      have hskip : removeNodeKeepChildren G z = some G := if_neg hz
      refine ⟨G', by rw [List.foldlM_cons, hskip]; exact hG', hF, hP, ?_⟩
      refine hR.congr fun x hx => ?_
      rw [List.mem_cons, not_or]
      exact (and_iff_right fun h : x = z => hz (h ▸ hx)).symm

/-- What is taken out below an extract: with a node all that is below it, and not the extract. -/
theorem removeZextFree_operands {n : Nat} (hG : G.IsForest) : ∃ vs : Finset Nat,
    (G.successors n).foldlM removeZextFree G = some (G.removeNodesFrom vs) ∧ n ∉ vs ∧
      (∀ x, x ∉ vs ↔ ∀ c, G.Edge n c → G.Below c x → HasZext G c) ∧
      ∀ {x y}, x ∈ vs → G.Edge x y → y ∈ vs := by
  obtain ⟨vs, hvs, hmem⟩ := foldlM_removeZextFree n (G.successors n) hG (successors_nodup G n)
    fun c hc => mem_successors.mp hc
  simp only [mem_successors] at hmem
  refine ⟨vs, hvs, fun h => ?_, fun x => ?_, fun {x y} hx hxy => ?_⟩
  · obtain ⟨c, hc, -, hcn⟩ := (hmem n).mp h
    exact hG.not_below_of_edge hc hcn
  · rw [hmem]
    constructor
    · intro h c hc hcx
      by_contra hfree
      exact h ⟨c, hc, hfree, hcx⟩
    · intro h hx
      obtain ⟨c, hc, hfree, hcx⟩ := hx
      exact hfree (h c hc hcx)
  · obtain ⟨c, hc, hfree, hcx⟩ := (hmem x).mp hx
    exact (hmem y).mpr ⟨c, hc, hfree, hcx.trans (.of_edge hxy)⟩

/-- **What the three steps of `process_graph_ZExt` leave** where the extract `n` is found: neither the extract, nor
its operands without an extension, nor any extension, and the rest below one another as it was, except across the
extract. -/
theorem removeExtractAndZext {n : Nat} (hG : G.IsForest) (hn : n ∈ G) : ∃ H K G',
    (G.successors n).foldlM removeZextFree G = some H ∧ removeIfThere H n = some K ∧
      (K.nodes.keys.filter (isZextNode K)).foldlM removeNodeKeepChildren K = some G' ∧
      G'.IsForest ∧ Prunes G' G ∧
      (∀ x, x ∈ G' ↔ x ∈ G ∧ x ≠ n ∧ isZextNode G x = false ∧ ∀ c, G.Edge n c → G.Below c x → HasZext G c) ∧
      ∀ u ∈ G', ∀ v ∈ G', (G'.Below u v ↔ G.Below u v ∧ ¬ (G.Below u n ∧ G.Below n v)) := by
  obtain ⟨vs, hvs, hnvs, hmem, hclosed⟩ := removeZextFree_operands (n := n) hG
  have hH := hG.removeNodesFrom vs
  have hRH := restricts_removeNodesFrom hclosed
  have hn' : n ∈ G.removeNodesFrom vs := mem_removeNodesFrom.mpr ⟨hn, hnvs⟩
  have hP₂ := (prunes_removeNodesFrom hG vs).trans (prunes_removeNodesFrom hH {n})
  obtain ⟨G', hG', hF, hP, hR⟩ := foldlM_removeNodeKeepChildren
    (((G.removeNodesFrom vs).removeNodesFrom {n}).nodes.keys.filter
      (isZextNode ((G.removeNodesFrom vs).removeNodesFrom {n}))) (hH.removeNodesFrom {n})
  have hmem₂ : ∀ {x}, x ∈ (G.removeNodesFrom vs).removeNodesFrom {n} ↔ (x ∈ G ∧ x ∉ vs) ∧ x ≠ n := by
    intro x
    rw [mem_removeNodesFrom, mem_removeNodesFrom, Finset.mem_singleton]
  refine ⟨_, _, G', hvs, by rw [removeIfThere, if_pos hn', removeNode_of_mem hn'], hG', hF, hP₂.trans hP,
    fun x => ?_, fun u hu v hv => ?_⟩
  · rw [hR.mem, List.mem_filter, not_and, Bool.not_eq_true, ← hmem]
    constructor
    · intro h
      obtain ⟨⟨hx, hxvs⟩, hxn⟩ := hmem₂.mp h.1
      exact ⟨hx, hxn, (isZextNode_of_prunes hP₂ h.1).symm.trans (h.2 h.1), hxvs⟩
    · intro h
      have hx₂ := hmem₂.mpr ⟨⟨h.1, h.2.2.2⟩, h.2.1⟩
      exact ⟨hx₂, fun _ => (isZextNode_of_prunes hP₂ hx₂).trans h.2.2.1⟩
  · have hu₂ := hmem₂.mp (hR.mem_of_mem hu)
    have hv₂ := hmem₂.mp (hR.mem_of_mem hv)
    have huH := mem_removeNodesFrom.mpr hu₂.1
    have hvH := mem_removeNodesFrom.mpr hv₂.1
    rw [hR.below hu hv, hH.below_removeNode hu₂.2 hv₂.2, hRH.below huH hvH, hRH.below huH hn',
      hRH.below hn' hvH]

/-- **`process_graph_ZExt` on a forest** raises nothing. It changes the graph exactly if the first extract
has an operand of two extended branches; then the extract is gone, its operands without an extension are
gone with all below them, and so are all extensions. What was above the extract is not above what was below
it any more, and the rest is below one another as it was. -/
theorem processGraphZExt_eq (hG : G.IsForest) : ∃ G' changed,
    processGraphZExt G = some (G', changed) ∧ G'.IsForest ∧ Prunes G' G ∧
    (changed = false → G' = G ∧ ∀ n, G.nodes.keys.find? (isExtractNode G) = some n → ¬ TwoZextBranches G n) ∧
    (changed = true → ∃ n, G.nodes.keys.find? (isExtractNode G) = some n ∧ TwoZextBranches G n ∧
      (∀ x, x ∈ G' ↔ x ∈ G ∧ x ≠ n ∧ isZextNode G x = false ∧
        ∀ c, G.Edge n c → G.Below c x → HasZext G c) ∧
      ∀ u ∈ G', ∀ v ∈ G', (G'.Below u v ↔ G.Below u v ∧ ¬ (G.Below u n ∧ G.Below n v))) := by
  unfold processGraphZExt
  split
  · rename_i hnone
    refine ⟨G, false, rfl, hG, .refl G, fun _ => ⟨rfl, fun n hn => ?_⟩, fun h => Bool.noConfusion h⟩
    rw [hnone] at hn
    cases hn
  · rename_i n hfind
    have hn : n ∈ G := List.mem_of_find?_eq_some hfind
    obtain ⟨found, hfound, hiff⟩ := findSubtreeWithTwoZextBranches_eq G n
    cases found with
    | false =>
      refine ⟨G, false, ?_, hG, .refl G, fun _ => ⟨rfl, fun n' hn' => ?_⟩, fun h => Bool.noConfusion h⟩
      · rw [hfound]
        rfl
      · obtain rfl := Option.some.inj (hfind.symm.trans hn')
        exact fun h => Bool.noConfusion (hiff.mpr h)
    | true =>
      obtain ⟨H, K, G', hH, hK, hG', hF, hP, hmem, hbelow⟩ := removeExtractAndZext hG hn
      refine ⟨G', true, ?_, hF, hP, fun h => Bool.noConfusion h, fun _ => ⟨n, hfind, hiff.mp rfl, hmem, hbelow⟩⟩
      simp only [hfound, hH, hK, hG', Option.bind_eq_bind, Option.bind_some]
      rfl

end Zext

end Assure
