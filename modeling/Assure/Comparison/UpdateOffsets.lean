import Assure.Comparison.PostProcess
import Assure.Library.Unfolding

/-!
# The offsets of updates

An update of an array is a node over the offset and the value. Where the offset is computed from the address
of a known array, `simplify_update_list` puts that address in the place of the whole computation. A removal
goes through a subtree from below and leaves one node. The node kept is then added to the update's node
again; if it was the offset itself, it has been removed before and comes back without its attributes.

`find_first_klee_offset` raises for an address without a sibling. If each address is a leaf with a sibling and
each update has two operands, the whole run raises nothing (`simplifyUpdateList_eq`).
-/

namespace Assure

open Assure.Library Assure.Library.OrderedGraph Assure.Library.RoseTree

/-! ## The code -/

section Code

variable (G : KqueryGraph)

/-- The two types of an address. -/
def isKleeOffset (n : Nat) : Bool :=
  G.type n == some "normal_klee_offset" || G.type n == some "concrete_klee_offset"

/-- The other children of the first parent. -/
def getSiblings (n : Nat) : List Nat :=
  match G.predecessors n with
  | [] => []
  | parent :: _ => (G.successors parent).filter (· ≠ n)

/-- `nx.dfs_preorder_nodes(G, root)` -/
def dfsPreorderNodes (root : Nat) : List Nat := preorder G.successors G.nodes.keys.length [] root

/-- It raises for an address without siblings. -/
def findFirstKleeOffset (root : Nat) : Option (Option Nat) :=
  match (dfsPreorderNodes G root).find? (isKleeOffset G) with
  | none => some none
  | some n =>
    match getSiblings G n with
    | [] => none
    | sibling :: _ => if G.label sibling = some "Add" then some none else some (some n)

end Code

/-- It raises for a root that is not there. -/
def removeCurrentSubtree (offsetNode : Nat) : Nat → KqueryGraph → Nat → Option KqueryGraph
  | 0, _, _ => none
  | fuel + 1, G, root =>
    if root ∈ G then do
      let G ← (G.successors root).foldlM (removeCurrentSubtree offsetNode fuel) G
      if root ∈ G ∧ root ≠ offsetNode then G.removeNode root else some G
    else none

/-- The address in the place of the offset. The edge to the offset is gone with it. -/
def replaceOffset (G : KqueryGraph) (child leftRoot offsetNode : Nat) : Option KqueryGraph := do
  let fuel := G.nodes.keys.length
  let G ← ((G.successors leftRoot).filter (· ≠ offsetNode)).foldlM
    (removeCurrentSubtree offsetNode fuel) G
  let G ← G.removeNode leftRoot
  return G.addEdge child offsetNode none

/-- One update. -/
def simplifyUpdate (s : KqueryGraph × Bool) (child : Nat) : Option (KqueryGraph × Bool) :=
  if child ∈ s.1 then
    match s.1.successors child with
    | [] => some s
    | leftRoot :: _ =>
      match findFirstKleeOffset s.1 leftRoot with
      | none => none
      | some none => some s
      | some (some offsetNode) =>
        if s.1.type offsetNode = some "concrete_klee_offset" then some s
        else (replaceOffset s.1 child leftRoot offsetNode).map fun G => (G, true)
  else none

/-- One node of the graph. -/
def simplifyNode (s : KqueryGraph × Bool) (upd : Nat) : Option (KqueryGraph × Bool) :=
  if upd ∈ s.1 ∧ s.1.label upd = some "update_list" then (s.1.successors upd).foldlM simplifyUpdate s
  else some s

def simplifyUpdateList : Pass := fun G => G.nodes.keys.foldlM simplifyNode (G, false)

/-! ## Removing all but one node -/

section Remove

variable {G : KqueryGraph} {o : Nat}

/-- The order of a walk through a forest. -/
theorem dfsPreorderNodes_eq (hG : G.IsForest) {t : RoseTree Nat} (ht : Unfolds G.successors t)
    (hroot : t.label ∈ G) : dfsPreorderNodes G t.label = t.labels := by
  have hnodup := ht.nodup hG
  have hlength : t.labels.length ≤ G.nodes.keys.length := by
    apply (hnodup.subperm fun x hx => ?_).length_le
    exact Below.mem_of_left (ht.mem_labels.mp hx) hroot
  exact preorder_eq t _ [] ht hlength hnodup

mutual

/-- **All of a subtree is removed but one node**, from a graph that has lost other nodes. -/
theorem removeCurrentSubtree_eq : ∀ (t : RoseTree Nat) (fuel : Nat) (vs : Finset Nat),
    Unfolds G.successors t → t.label ∈ G → t.labels.length ≤ fuel → t.labels.Nodup →
      (∀ x ∈ t.labels, x ∉ vs) → removeCurrentSubtree o fuel (G.removeNodesFrom vs) t.label =
        some (G.removeNodesFrom (vs ∪ (t.labels.toFinset.erase o)))
  | node a cs, 0, _, _, _, hfuel, _, _ => by
    rw [labels_node, List.length_cons] at hfuel
    omega
  | node a cs, fuel + 1, vs, h, ha, hfuel, hnodup, hvs => by
    obtain ⟨hcs, hunfolds⟩ := unfolds_node.mp h
    rw [labels_node] at hfuel hnodup hvs
    rw [List.length_cons] at hfuel
    obtain ⟨hacs, hnodup⟩ := List.nodup_cons.mp hnodup
    have havs : a ∉ vs := hvs a List.mem_cons_self
    have haG : a ∈ G.removeNodesFrom vs := mem_removeNodesFrom.mpr ⟨ha, havs⟩
    have hedge : ∀ c ∈ cs, G.Edge a c.label := fun c hc =>
      mem_successors.mp (hcs ▸ List.mem_map_of_mem hc)
    have hchildren : (G.removeNodesFrom vs).successors a = cs.map label := by
      rw [successors_removeNodesFrom havs, ← hcs, List.filter_eq_self.mpr]
      intro x hx
      obtain ⟨c, hc, rfl⟩ := List.mem_map.mp hx
      have := hvs c.label (List.mem_cons_of_mem _ (List.mem_flatMap.mpr ⟨c, hc, c.label_mem_labels⟩))
      simpa using this
    have hfold := foldlM_removeCurrentSubtree_eq cs fuel vs hunfolds (fun c hc => (hedge c hc).right)
      (by omega) hnodup fun x hx => hvs x (List.mem_cons_of_mem _ hx)
    show removeCurrentSubtree o (fuel + 1) (G.removeNodesFrom vs) a = _
    rw [removeCurrentSubtree, if_pos haG, hchildren, hfold, Option.bind_eq_bind, Option.bind_some,
      labels_node]
    have haleft : a ∈ G.removeNodesFrom (vs ∪ (cs.flatMap labels).toFinset.erase o) := by
      refine mem_removeNodesFrom.mpr ⟨ha, fun hmem => ?_⟩
      rcases Finset.mem_union.mp hmem with hmem | hmem
      · exact havs hmem
      · exact hacs (List.mem_toFinset.mp (Finset.mem_of_mem_erase hmem))
    by_cases hao : a = o
    · rw [if_neg fun hand => hand.2 hao]
      apply congrArg some
      apply removeNodesFrom_congr
      intro x _
      simp [hao]
    · rw [if_pos ⟨haleft, hao⟩, removeNode_of_mem haleft, removeNodesFrom_removeNodesFrom]
      apply congrArg some
      apply removeNodesFrom_congr
      intro x _
      by_cases hxa : x = a
      · simp [hxa, hao]
      · simp [hxa]

/-- Removing the trees below the operands of a node, one after the other, removes all their nodes
except the one that is to be kept. -/
theorem foldlM_removeCurrentSubtree_eq : ∀ (cs : List (RoseTree Nat)) (fuel : Nat) (vs : Finset Nat),
    (∀ c ∈ cs, Unfolds G.successors c) → (∀ c ∈ cs, c.label ∈ G) → (cs.flatMap labels).length ≤ fuel →
      (cs.flatMap labels).Nodup → (∀ x ∈ cs.flatMap labels, x ∉ vs) →
        (cs.map label).foldlM (removeCurrentSubtree o fuel) (G.removeNodesFrom vs) =
          some (G.removeNodesFrom (vs ∪ ((cs.flatMap labels).toFinset.erase o)))
  | [], _, vs, _, _, _, _, _ => by
    rw [List.map_nil, List.foldlM_nil]
    apply congrArg some
    simp
  | c :: cs, fuel, vs, h, hmem, hfuel, hnodup, hvs => by
    rw [List.flatMap_cons] at hfuel hnodup hvs ⊢
    rw [List.length_append] at hfuel
    obtain ⟨hfirst, hrest, hdisjoint⟩ := List.nodup_append.mp hnodup
    rw [List.map_cons, List.foldlM_cons, removeCurrentSubtree_eq c fuel vs (h c List.mem_cons_self)
      (hmem c List.mem_cons_self) (by omega) hfirst fun x hx => hvs x (List.mem_append_left _ hx)]
    have hafter : ∀ x ∈ cs.flatMap labels, x ∉ vs ∪ c.labels.toFinset.erase o := by
      intro x hx hmem
      rcases Finset.mem_union.mp hmem with hmem | hmem
      · exact hvs x (List.mem_append_right _ hx) hmem
      · exact hdisjoint x (List.mem_toFinset.mp (Finset.mem_of_mem_erase hmem)) x hx rfl
    have hfold := foldlM_removeCurrentSubtree_eq cs fuel _ (fun d hd => h d (List.mem_cons_of_mem _ hd))
      (fun d hd => hmem d (List.mem_cons_of_mem _ hd)) (by omega) hrest hafter
    refine Eq.trans hfold (congrArg some (removeNodesFrom_congr fun x _ => ?_))
    simp only [Finset.mem_union, Finset.mem_erase, List.mem_toFinset, List.mem_append]
    tauto

end

end Remove

/-! ## One replacement -/

section Replace

variable {G G' : KqueryGraph} {child leftRoot o : Nat}

/-- A forest unfolds. -/
theorem exists_unfolds_forest (hG : G.IsForest) {root : Nat} (hroot : root ∈ G) :
    ∃ t : RoseTree Nat, t.label = root ∧ Unfolds G.successors t :=
  exists_unfolds G.nodes.keys.toFinset (fun _ hv => List.mem_toFinset.mpr (Below.mem_of_left hv hroot))
    fun _ _ _ hw => hG.not_below_of_edge (mem_successors.mp hw)

/-- A leaf has no children. -/
theorem not_edge_of_leaf (hleaf : G.successors o = []) (c : Nat) : ¬ G.Edge o c := by
  rw [← mem_successors, hleaf]
  exact List.not_mem_nil

/-- Nothing is below a leaf. -/
theorem eq_of_below_leaf (hleaf : G.successors o = []) {x : Nat} (h : G.Below o x) : x = o := by
  rcases h.eq_or_child with rfl | ⟨c, hc, -⟩
  · rfl
  · exact absurd hc (not_edge_of_leaf hleaf c)

/-- **All below the offset is removed but the address.** -/
theorem foldlM_removeOthers (hG : G.IsForest) {r : Nat} (hr : r ∈ G) (hleaf : G.successors o = []) :
    ∃ vs : Finset Nat, ((G.successors r).filter (· ≠ o)).foldlM
      (removeCurrentSubtree o G.nodes.keys.length) G = some (G.removeNodesFrom vs) ∧
        ∀ x, x ∈ vs ↔ G.Below r x ∧ x ≠ r ∧ x ≠ o := by
  obtain ⟨⟨_, cs⟩, rfl, ht⟩ := exists_unfolds_forest hG hr
  obtain ⟨hcs, hunfolds⟩ := unfolds_node.mp ht
  rename_i r
  have hnodup := ht.nodup hG
  rw [labels_node, List.nodup_cons] at hnodup
  have hcedge : ∀ c ∈ cs, G.Edge r c.label := fun c hc => mem_successors.mp (hcs ▸ List.mem_map_of_mem hc)
  have hsub : ((cs.filter fun c => c.label ≠ o).flatMap labels).Sublist (cs.flatMap labels) :=
    List.filter_sublist.flatMap labels
  have hlength : ((cs.filter fun c => c.label ≠ o).flatMap labels).length ≤ G.nodes.keys.length := by
    apply ((hnodup.2.sublist hsub).subperm fun x hx => ?_).length_le
    obtain ⟨c, hc, hx⟩ := List.mem_flatMap.mp (hsub.subset hx)
    exact Below.mem_of_left ((hunfolds c hc).mem_labels.mp hx) (hcedge c hc).right
  have hfold := foldlM_removeCurrentSubtree_eq (o := o) (cs.filter fun c => c.label ≠ o)
    G.nodes.keys.length ∅ (fun c hc => hunfolds c (List.mem_of_mem_filter hc))
    (fun c hc => (hcedge c (List.mem_of_mem_filter hc)).right) hlength (hnodup.2.sublist hsub)
    fun x _ => Finset.notMem_empty x
  have hothers : (G.successors r).filter (· ≠ o) = (cs.filter fun c => c.label ≠ o).map label := by
    rw [← hcs, List.filter_map]
    rfl
  rw [removeNodesFrom_empty, Finset.empty_union, ← hothers] at hfold
  refine ⟨_, hfold, fun x => ?_⟩
  rw [Finset.mem_erase, List.mem_toFinset]
  constructor
  · intro h
    obtain ⟨c, hc, hx⟩ := List.mem_flatMap.mp (hsub.subset h.2)
    refine ⟨(Below.of_edge (hcedge c hc)).trans ((hunfolds c hc).mem_labels.mp hx), ?_, h.1⟩
    rintro rfl
    exact hnodup.1 (hsub.subset h.2)
  · intro h
    obtain ⟨c, hc, hcx⟩ := h.1.eq_or_child.resolve_left h.2.1.symm
    rw [← mem_successors, show G.successors (node r cs).label = cs.map label from hcs.symm] at hc
    obtain ⟨d, hd, rfl⟩ := List.mem_map.mp hc
    have hdo : d.label ≠ o := fun hdo => h.2.2 (eq_of_below_leaf hleaf (hdo ▸ hcx))
    exact ⟨h.2.2, List.mem_flatMap.mpr ⟨d, List.mem_filter.mpr ⟨hd, by simpa using hdo⟩,
      (hunfolds d hd).mem_labels.mpr hcx⟩⟩

/-- **An address further down** is promoted for the offset. -/
theorem replaceOffset_promotes (hG : G.IsForest) (hedge : G.Edge child leftRoot) (ho : G.Below leftRoot o)
    (hne : o ≠ leftRoot) (hleaf : G.successors o = []) :
    ∃ G', replaceOffset G child leftRoot o = some G' ∧ Promotes G' G leftRoot o := by
  obtain ⟨vs, hfold, hvs⟩ := foldlM_removeOthers hG hedge.right hleaf
  have hleft : leftRoot ∈ G.removeNodesFrom vs :=
    mem_removeNodesFrom.mpr ⟨hedge.right, fun h => ((hvs _).mp h).2.1 rfl⟩
  have hremoved : ∀ {x}, x ∈ vs ∪ {leftRoot} ↔ G.Below leftRoot x ∧ x ≠ o := by
    intro x
    rw [Finset.mem_union, hvs, Finset.mem_singleton]
    by_cases hx : x = leftRoot
    · simp only [hx, ne_eq, not_true_eq_false, false_and, and_false, or_true, true_iff]
      exact ⟨.refl _, hne.symm⟩
    · simp [hx]
  have hspared : ∀ {x}, G.spared leftRoot o x ↔ x ∉ vs ∪ {leftRoot} := by
    intro x
    rw [spared_iff hedge.right ho, hremoved, not_and, not_not]
    exact forall_congr' fun _ => ⟨eq_of_below_leaf hleaf, fun h => h ▸ .refl _⟩
  have hchild : ¬ G.Below leftRoot child := hG.not_below_of_edge hedge
  have hchildLeft : child ∈ G.removeNodesFrom (vs ∪ {leftRoot}) :=
    mem_removeNodesFrom.mpr ⟨hedge.left, fun h => hchild (hremoved.mp h).1⟩
  have hoLeft : o ∈ G.removeNodesFrom (vs ∪ {leftRoot}) :=
    mem_removeNodesFrom.mpr ⟨ho.mem_of_left hedge.right, fun h => (hremoved.mp h).2 rfl⟩
  have hnew : (child, o) ∉ (G.removeNodesFrom (vs ∪ {leftRoot})).edges.keys := by
    intro h
    have hco : G.Edge child o := (edge_removeNodesFrom.mp h).1
    exact hchild ((hG.eq_or_below_parent hco ho).resolve_left hne.symm)
  refine ⟨(G.removeNodesFrom (vs ∪ {leftRoot})).addEdge child o none, ?_, ⟨?_, ?_⟩⟩
  · rw [replaceOffset]
    simp only [hfold, removeNode_of_mem hleft, removeNodesFrom_removeNodesFrom, Option.bind_eq_bind,
      Option.bind_some]
    rfl
  · rw [nodes_addEdge hchildLeft hoLeft, entries_removeNodesFrom]
    apply List.filter_congr
    intro e _
    exact decide_eq_decide.mpr hspared.symm
  · rw [hG.predecessors_eq hedge]
    refine (Dict.entries_setdefault_of_notMem hnew none).trans ?_
    rw [edges_removeNodesFrom]
    congr 1
    apply List.filter_congr
    intro e _
    exact decide_eq_decide.mpr (and_congr hspared hspared).symm

/-- **The offset itself** comes back without attributes. -/
structure Resets (G' G : KqueryGraph) (n : Nat) : Prop where
  nodes : G'.nodes.entries = G.nodes.entries.filter (·.1 ≠ n) ++ [(n, default)]
  edge : ∀ {x y}, G'.Edge x y ↔ G.Edge x y

/-- Replacing an offset that is a leaf by itself does not keep it as it was: it is removed and added
again without its attributes. -/
theorem replaceOffset_resets (hG : G.IsForest) (hedge : G.Edge child o) (hleaf : G.successors o = []) :
    ∃ G', replaceOffset G child o o = some G' ∧ Resets G' G o := by
  have hchild : child ≠ o := hG.ne_of_edge hedge
  have hchildLeft : child ∈ G.removeNodesFrom {o} :=
    mem_removeNodesFrom.mpr ⟨hedge.left, by simpa using hchild⟩
  have hoGone : o ∉ G.removeNodesFrom {o} := fun h => (mem_removeNodesFrom.mp h).2 (Finset.mem_singleton_self o)
  refine ⟨(G.removeNodesFrom {o}).addEdge child o none, ?_, ?_, ?_⟩
  · rw [replaceOffset]
    simp only [hleaf, List.filter_nil, List.foldlM_nil, Option.pure_def, Option.bind_eq_bind,
      Option.bind_some, removeNode_of_mem hedge.right]
  · show (((G.removeNodesFrom {o}).nodes.setdefault child default).setdefault o default).entries = _
    rw [Dict.setdefault_of_mem hchildLeft, Dict.entries_setdefault_of_notMem hoGone,
      entries_removeNodesFrom]
    simp
  · intro x y
    rw [edge_addEdge, edge_removeNodesFrom]
    simp only [Finset.mem_singleton]
    constructor
    · intro h
      rcases h with ⟨rfl, rfl⟩ | h
      · exact hedge
      · exact h.1
    · intro h
      by_cases hy : y = o
      · exact .inl ⟨hG.parent (hy ▸ h) hedge, hy⟩
      · refine .inr ⟨h, ?_, hy⟩
        rintro rfl
        exact not_edge_of_leaf hleaf _ h

/-- Such a replacement keeps the nodes of the graph. -/
theorem Resets.mem (h : Resets G' G o) (ho : o ∈ G) {x : Nat} : x ∈ G' ↔ x ∈ G := by
  have hkeys : G'.nodes.keys = G.nodes.keys.filter (· ≠ o) ++ [o] := by
    rw [Dict.keys, h.nodes, List.map_append, Dict.keys, List.filter_map]
    rfl
  rw [mem_iff, hkeys, List.mem_append, List.mem_filter, List.mem_singleton, decide_eq_true_eq]
  by_cases hx : x = o
  · simp [hx, ho]
  · simp [hx, mem_iff]

/-- It keeps the attributes of all other nodes. -/
theorem Resets.get? (h : Resets G' G o) {x : Nat} (hx : x ≠ o) : G'.nodes.get? x = G.nodes.get? x := by
  apply Option.ext
  intro a
  rw [Dict.get?_eq_some_iff, Dict.get?_eq_some_iff, h.nodes]
  simp [hx]

/-- It empties the attributes of the node itself. -/
theorem Resets.get?_self (h : Resets G' G o) : G'.nodes.get? o = some default := by
  rw [Dict.get?_eq_some_iff, h.nodes]
  simp

/-- It keeps what lies below what. -/
theorem Resets.below (h : Resets G' G o) {x y : Nat} : G'.Below x y ↔ G.Below x y :=
  ⟨Below.mono h.edge.mp, Below.mono h.edge.mpr⟩

end Replace

/-! ## The run -/

/-- The attributes of a node say what it is. -/
theorem isKleeOffset_congr {G G' : KqueryGraph} {x : Nat} (h : G'.nodes.get? x = G.nodes.get? x) :
    isKleeOffset G' x = isKleeOffset G x := by
  rw [isKleeOffset, KqueryGraph.type, h]
  rfl

/-- The label of a node is read off its attributes. -/
theorem label_congr {G G' : KqueryGraph} {x : Nat} (h : G'.nodes.get? x = G.nodes.get? x) :
    G'.label x = G.label x := congrArg (·.bind (·.label)) h

/-- Only a node of the graph can be an offset. -/
theorem mem_of_isKleeOffset {G : KqueryGraph} {x : Nat} (h : isKleeOffset G x = true) : x ∈ G := by
  by_contra hx
  simp [isKleeOffset, KqueryGraph.type, (G.nodes.get?_eq_none_iff x).mpr hx] at h

/-- **Addresses are leaves with a sibling, updates have two operands.** -/
structure UpdatesReady (G : KqueryGraph) : Prop where
  leaf : ∀ {o}, isKleeOffset G o = true → G.successors o = []
  sibling : ∀ {p o}, isKleeOffset G o = true → G.Edge p o → ∃ s, G.Edge p s ∧ s ≠ o
  pair : ∀ {upd child o}, G.label upd = some "update_list" → G.Edge upd child → G.Edge child o →
    ∃ s, G.Edge child s ∧ s ≠ o

/-- It can be checked edge by edge. -/
instance (G : KqueryGraph) : Decidable (UpdatesReady G) :=
  decidable_of_iff ((∀ o ∈ G.nodes.keys, isKleeOffset G o = true → G.successors o = []) ∧
      (∀ e ∈ G.edges.keys, isKleeOffset G e.2 = true → ∃ s ∈ G.successors e.1, s ≠ e.2) ∧
      ∀ e ∈ G.edges.keys, G.label e.1 = some "update_list" →
        ∀ o ∈ G.successors e.2, ∃ s ∈ G.successors e.2, s ≠ o) <| by
    simp only [mem_successors]
    constructor
    · intro h
      obtain ⟨hleaf, hsibling, hpair⟩ := h
      exact ⟨fun ho => hleaf _ (mem_of_isKleeOffset ho) ho, fun ho hp => hsibling (_, _) hp ho,
        fun hupd hchild ho => hpair (_, _) hchild hupd _ ho⟩
    · intro hR
      exact ⟨fun o _ ho => hR.leaf ho, fun e he ho => hR.sibling ho he,
        fun e he hupd o ho => hR.pair hupd he ho⟩

/-- **What a run leaves**: nodes below one another as they were, with their attributes or, for an address,
without. Only nodes below an update are gone. -/
structure Simplified (G' G : KqueryGraph) : Prop where
  isForest : G'.IsForest
  ready : UpdatesReady G'
  laid : G.Laid → G'.Laid
  mem : ∀ {x}, x ∈ G' → x ∈ G
  below : ∀ {u v}, u ∈ G' → v ∈ G' → (G'.Below u v ↔ G.Below u v)
  data : ∀ {x}, x ∈ G' → G'.nodes.get? x = G.nodes.get? x ∨
    isKleeOffset G x = true ∧ G'.nodes.get? x = some default
  gone : ∀ {x}, x ∈ G → x ∉ G' → ∃ upd, G.label upd = some "update_list" ∧ G.Below upd x

/-- A graph that is ready for the pass is a simplification of itself. -/
theorem Simplified.refl {G : KqueryGraph} (hG : G.IsForest) (hR : UpdatesReady G) : Simplified G G where
  isForest := hG
  ready := hR
  laid := id
  mem hx := hx
  below _ _ := Iff.rfl
  data _ := .inl rfl
  gone hx hx' := absurd hx hx'

/-- Simplifications can be made one after the other, which is how the pass goes through the update
lists. -/
theorem Simplified.trans {G G' G'' : KqueryGraph} (h : Simplified G' G) (h' : Simplified G'' G') :
    Simplified G'' G where
  isForest := h'.isForest
  ready := h'.ready
  laid hL := h'.laid (h.laid hL)
  mem hx := h.mem (h'.mem hx)
  below hu hv := (h'.below hu hv).trans (h.below (h'.mem hu) (h'.mem hv))
  data := by
    intro x hx
    rcases h'.data hx with heq | ⟨hoffset, hreset⟩
    · rw [heq]
      exact h.data (h'.mem hx)
    · rcases h.data (h'.mem hx) with heq | ⟨hoffset', -⟩
      · exact .inr ⟨isKleeOffset_congr heq ▸ hoffset, hreset⟩
      · exact .inr ⟨hoffset', hreset⟩
  gone := by
    intro x hx hx''
    by_cases hx' : x ∈ G'
    · obtain ⟨upd, hlabel, hbelow⟩ := h'.gone hx' hx''
      have hupd : upd ∈ G' := by
        by_contra hupd
        rw [KqueryGraph.label, (G'.nodes.get?_eq_none_iff upd).mpr hupd] at hlabel
        cases hlabel
      refine ⟨upd, ?_, (h.below hupd hx').mp hbelow⟩
      rcases h.data hupd with heq | ⟨-, hreset⟩
      · rwa [label_congr heq] at hlabel
      · rw [KqueryGraph.label, hreset] at hlabel
        cases hlabel
    · exact h.gone hx hx'

section Step

variable {G G' : KqueryGraph} {upd child leftRoot o : Nat}

/-- The search finds an address. -/
theorem findFirstKleeOffset_eq (hG : G.IsForest) (hR : UpdatesReady G) (hedge : G.Edge child leftRoot) :
    ∃ found, findFirstKleeOffset G leftRoot = some found ∧
      ∀ o ∈ found, isKleeOffset G o = true ∧ G.Below leftRoot o := by
  obtain ⟨t, rfl, ht⟩ := exists_unfolds_forest hG hedge.right
  unfold findFirstKleeOffset
  rw [dfsPreorderNodes_eq hG ht hedge.right]
  split
  · exact ⟨none, rfl, fun o ho => nomatch ho⟩
  · rename_i o ho
    have hoffset := List.find?_some ho
    have hbelow : G.Below t.label o := ht.mem_labels.mp (List.mem_of_find?_eq_some ho)
    obtain ⟨p, hp⟩ := hbelow.exists_parent hedge
    obtain ⟨s, hs, hso⟩ := hR.sibling hoffset hp
    have hmem : s ∈ getSiblings G o := by
      rw [getSiblings, hG.predecessors_eq hp]
      exact List.mem_filter.mpr ⟨mem_successors.mpr hs, by simpa using hso⟩
    split
    · rename_i hnone
      rw [hnone] at hmem
      cases hmem
    · split
      · exact ⟨none, rfl, fun o ho => nomatch ho⟩
      · refine ⟨some o, rfl, fun o' ho' => ?_⟩
        obtain rfl := Option.some.inj ho'
        exact ⟨hoffset, hbelow⟩

/-- **An address promoted** leaves its siblings siblings. -/
theorem Simplified.of_promotes (hG : G.IsForest) (hR : UpdatesReady G) (hupd : G.label upd = some "update_list")
    (hchild : G.Edge upd child) (hedge : G.Edge child leftRoot) (hoffset : isKleeOffset G o = true)
    (ho : G.Below leftRoot o) (hne : o ≠ leftRoot) (h : Promotes G' G leftRoot o) : Simplified G' G := by
  have hleaf := hR.leaf hoffset
  have hP := h.prunes hG hedge.right ho
  have hF := h.isForest hG hedge.right ho hne.symm
  have hspared : ∀ {x}, G.spared leftRoot o x ↔ (G.Below leftRoot x → x = o) := by
    intro x
    rw [spared_iff hedge.right ho]
    exact forall_congr' fun _ => ⟨eq_of_below_leaf hleaf, fun h => h ▸ .refl _⟩
  have hget : ∀ {x}, x ∈ G' → G'.nodes.get? x = G.nodes.get? x := fun hx => hP.get? hx
  have hofChild : ∀ {s}, G.Edge child s → s ≠ leftRoot → G'.Edge child s ∧ s ≠ o := by
    intro s hs hsl
    have hsbelow : ¬ G.Below leftRoot s := fun h => hG.disjoint hedge hs hsl.symm h (.refl _)
    refine ⟨h.edge.mpr (.inl ⟨hs, ?_, hspared.mpr fun h => absurd h hsbelow⟩), ?_⟩
    · exact hspared.mpr fun h => absurd h (hG.not_below_of_edge hedge)
    · rintro rfl
      exact hsbelow ho
  -- a sibling that is gone was the operand itself, and the address is in its place
  have hsibling : ∀ {p c s}, G'.Edge p c → G.Edge p c → G.Edge p s → s ≠ c → ∃ s, G'.Edge p s ∧ s ≠ c := by
    intro p c s hpc' hpc hps hsc
    have hp : ¬ G.Below leftRoot p := by
      intro hlp
      obtain rfl := hspared.mp (h.mem.mp hpc'.left).2 hlp
      exact not_edge_of_leaf hleaf c hpc
    by_cases hsl : s = leftRoot
    · obtain rfl := hG.parent (hsl ▸ hps) hedge
      refine ⟨o, h.edge.mpr (.inr ⟨hedge, rfl⟩), ?_⟩
      rintro rfl
      exact hp ((hG.eq_or_below_parent hpc ho).resolve_left hne.symm)
    · have hs : ¬ G.Below leftRoot s := fun hls =>
        hp ((hG.eq_or_below_parent hps hls).resolve_left (Ne.symm hsl))
      refine ⟨s, h.edge.mpr (.inl ⟨hps, ?_, ?_⟩), hsc⟩
      · exact hspared.mpr fun h => absurd h hp
      · exact hspared.mpr fun h => absurd h hs
  refine ⟨hF, ⟨?_, ?_, ?_⟩, hP.laid hF, fun hx => (h.mem.mp hx).1, (h.restricts hG hedge.right ho).below,
    fun hx => .inl (hget hx), ?_⟩
  · intro o' ho'
    have hmem : o' ∈ G' := mem_of_isKleeOffset ho'
    have hleaf' := hR.leaf (isKleeOffset_congr (hget hmem) ▸ ho')
    apply List.eq_nil_iff_forall_not_mem.mpr
    intro c hc
    rcases h.edge.mp (mem_successors.mp hc) with ⟨hc, -⟩ | ⟨hc, -⟩
    · exact not_edge_of_leaf hleaf' c hc
    · exact not_edge_of_leaf hleaf' _ hc
  · intro p o' ho' hpo'
    have ho'' := isKleeOffset_congr (hget hpo'.right) ▸ ho'
    rcases h.edge.mp hpo' with ⟨hold, -⟩ | ⟨hpl, rfl⟩
    · obtain ⟨s, hs, hso⟩ := hR.sibling ho'' hold
      exact hsibling hpo' hold hs hso
    · obtain rfl := hG.parent hpl hedge
      obtain ⟨s, hs, hsl⟩ := hR.pair hupd hchild hedge
      exact ⟨s, hofChild hs hsl⟩
  · intro upd' child' o' hlabel hchild' ho'
    rw [label_congr (hget hchild'.left)] at hlabel
    have hold' : G.Edge upd' child' := by
      rcases h.edge.mp hchild' with ⟨hold, -⟩ | ⟨-, rfl⟩
      · exact hold
      · rcases h.edge.mp ho' with ⟨hc, -⟩ | ⟨hc, -⟩
        · exact absurd hc (not_edge_of_leaf hleaf _)
        · exact absurd hc (not_edge_of_leaf hleaf _)
    rcases h.edge.mp ho' with ⟨hold, -⟩ | ⟨hpl, rfl⟩
    · obtain ⟨s, hs, hso⟩ := hR.pair hlabel hold' hold
      exact hsibling ho' hold hs hso
    · obtain rfl := hG.parent hpl hedge
      obtain ⟨s, hs, hsl⟩ := hR.pair hlabel hold' hpl
      exact ⟨s, hofChild hs hsl⟩
  · intro x hx hx'
    refine ⟨upd, hupd, (Below.of_edge hchild).trans ((Below.of_edge hedge).trans ?_)⟩
    by_contra hlx
    exact hx' (h.mem.mpr ⟨hx, hspared.mpr fun h => absurd h hlx⟩)

/-- **An address reset** is none any more. -/
theorem Simplified.of_resets (hR : UpdatesReady G) (hF : G.IsForest) (ho : o ∈ G)
    (hoffset : isKleeOffset G o = true) (h : Resets G' G o) : Simplified G' G := by
  have hkept : ∀ {o'}, isKleeOffset G' o' = true → isKleeOffset G o' = true := by
    intro o' ho'
    by_cases heq : o' = o
    · rwa [heq]
    · rwa [isKleeOffset_congr (h.get? heq)] at ho'
  have hlabel : ∀ {x}, G'.label x = some "update_list" → G.label x = some "update_list" := by
    intro x hx
    by_cases heq : x = o
    · rw [heq, KqueryGraph.label, h.get?_self] at hx
      cases hx
    · rwa [label_congr (h.get? heq)] at hx
  refine ⟨⟨fun hu hv => hF.parent (h.edge.mp hu) (h.edge.mp hv), ?_⟩, ⟨?_, ?_, ?_⟩, ?_, (h.mem ho).mp,
    fun _ _ => h.below, ?_, fun hx hx' => absurd ((h.mem ho).mpr hx) hx'⟩
  · obtain ⟨rank, hrank⟩ := hF.acyclic
    exact ⟨rank, fun hedge => hrank (h.edge.mp hedge)⟩
  · intro o' ho'
    apply List.eq_nil_iff_forall_not_mem.mpr
    intro c hc
    have hc : c ∈ G.successors o' := mem_successors.mpr (h.edge.mp (mem_successors.mp hc))
    rw [hR.leaf (hkept ho')] at hc
    cases hc
  · intro p o' ho' hpo'
    obtain ⟨s, hs, hso⟩ := hR.sibling (hkept ho') (h.edge.mp hpo')
    exact ⟨s, h.edge.mpr hs, hso⟩
  · intro upd' child' o' hupd hchild ho'
    obtain ⟨s, hs, hso⟩ := hR.pair (hlabel hupd) (h.edge.mp hchild) (h.edge.mp ho')
    exact ⟨s, h.edge.mpr hs, hso⟩
  · intro hL p a b x y hpa hpb hlt hax hby
    exact hL (h.edge.mp hpa) (h.edge.mp hpb) hlt (h.below.mp hax) (h.below.mp hby)
  · intro x hx
    by_cases heq : x = o
    · exact .inr ⟨heq ▸ hoffset, heq ▸ h.get?_self⟩
    · exact .inl (h.get? heq)

/-- **One update.** The update list keeps its other updates. -/
theorem simplifyUpdate_spec {changed : Bool} (hG : G.IsForest) (hR : UpdatesReady G)
    (hupd : G.label upd = some "update_list") (hchild : G.Edge upd child) : ∃ s,
      simplifyUpdate (G, changed) child = some s ∧ Simplified s.1 G ∧ (s.2 = false → s = (G, changed)) ∧
        s.1.label upd = some "update_list" ∧ ∀ {c}, G.Edge upd c → s.1.Edge upd c := by
  have hsame : ∃ s, some (G, changed) = some s ∧ Simplified s.1 G ∧ (s.2 = false → s = (G, changed)) ∧
      s.1.label upd = some "update_list" ∧ ∀ {c}, G.Edge upd c → s.1.Edge upd c :=
    ⟨_, rfl, .refl hG hR, fun _ => rfl, hupd, id⟩
  unfold simplifyUpdate
  rw [if_pos hchild.right]
  split
  · exact hsame
  · rename_i leftRoot _ hchildren
    have hedge : G.Edge child leftRoot := by
      rw [← mem_successors]
      exact hchildren ▸ List.mem_cons_self
    obtain ⟨found, hfound, haddress⟩ := findFirstKleeOffset_eq hG hR hedge
    simp only [hfound]
    cases found with
    | none => exact hsame
    | some o =>
      obtain ⟨hoffset, ho⟩ := haddress o rfl
      dsimp only
      split
      · exact hsame
      · have hupdChild : upd ≠ leftRoot := by
          rintro rfl
          exact hG.not_below_of_edge hchild (.of_edge hedge)
        by_cases hne : o = leftRoot
        · obtain rfl := hne
          obtain ⟨G', hG', hresets⟩ := replaceOffset_resets hG hedge (hR.leaf hoffset)
          refine ⟨(G', true), congrArg (Option.map _) hG', .of_resets hR hG hedge.right hoffset hresets,
            fun h => (nomatch h), ?_, hresets.edge.mpr⟩
          exact (label_congr (hresets.get? hupdChild)).trans hupd
        · obtain ⟨G', hG', hP⟩ := replaceOffset_promotes hG hedge ho hne (hR.leaf hoffset)
          have hspared : ∀ {x}, ¬ G.Below leftRoot x → G.spared leftRoot o x := fun hx =>
            (spared_iff hedge.right ho).mpr fun h => absurd h hx
          have habove : ¬ G.Below leftRoot upd := fun h =>
            hG.not_below_of_edge hchild ((Below.of_edge hedge).trans h)
          refine ⟨(G', true), congrArg (Option.map _) hG',
            .of_promotes hG hR hupd hchild hedge hoffset ho hne hP, fun h => (nomatch h), ?_, ?_⟩
          · have hmem : upd ∈ G' := hP.mem.mpr ⟨hchild.left, hspared habove⟩
            exact (label_congr ((hP.prunes hG hedge.right ho).get? hmem)).trans hupd
          · intro c hc
            refine hP.edge.mpr (.inl ⟨hc, hspared habove, hspared fun h => ?_⟩)
            rcases hG.eq_or_below_parent hc h with rfl | h
            · exact hG.ne_of_edge hchild (hG.parent hc hedge)
            · exact habove h

/-- **All updates of one list.** -/
theorem simplifyNode_spec {changed : Bool} (hG : G.IsForest) (hR : UpdatesReady G) : ∃ s,
    simplifyNode (G, changed) upd = some s ∧ Simplified s.1 G ∧ (s.2 = false → s = (G, changed)) := by
  unfold simplifyNode
  split
  · rename_i hupd
    have hstep : ∀ s : KqueryGraph × Bool, ∀ c ∈ G.successors upd,
        (Simplified s.1 G ∧ (s.2 = false → s = (G, changed)) ∧ s.1.label upd = some "update_list" ∧
          ∀ {c}, G.Edge upd c → s.1.Edge upd c) → ∃ s', simplifyUpdate s c = some s' ∧
            Simplified s'.1 G ∧ (s'.2 = false → s' = (G, changed)) ∧ s'.1.label upd = some "update_list" ∧
              ∀ {c}, G.Edge upd c → s'.1.Edge upd c := by
      intro s c hc hs
      obtain ⟨G₁, changed₁⟩ := s
      obtain ⟨hsimplified, hchanged, hlabel, hedges⟩ := hs
      obtain ⟨s', hs', hsimplified', hchanged', hlabel', hedges'⟩ := simplifyUpdate_spec
        hsimplified.isForest hsimplified.ready hlabel (hedges (mem_successors.mp hc))
      refine ⟨s', hs', hsimplified.trans hsimplified', fun h => ?_, hlabel', fun hc => hedges' (hedges hc)⟩
      have heq := hchanged' h
      exact heq.trans (hchanged ((congrArg Prod.snd heq).symm.trans h))
    obtain ⟨s, hs, hsimplified, hchanged, -⟩ := exists_foldlM_of_keeps _ (G.successors upd) (G, changed) hstep
      ⟨.refl hG hR, fun _ => rfl, hupd.2, id⟩
    exact ⟨s, hs, hsimplified, hchanged⟩
  · exact ⟨_, rfl, .refl hG hR, fun _ => rfl⟩

end Step

/-- **`simplify_update_list` raises nothing** where addresses are leaves with a sibling and updates have two
operands. What it leaves is a forest of the same kind: what is left is below one another as it was, with
its attributes or, for an address, without, and only nodes below an update are gone. -/
theorem simplifyUpdateList_eq {G : KqueryGraph} (hG : G.IsForest) (hR : UpdatesReady G) : ∃ s,
    simplifyUpdateList G = some s ∧ Simplified s.1 G ∧ (s.2 = false → s.1 = G) := by
  have hstep : ∀ s : KqueryGraph × Bool, ∀ upd ∈ G.nodes.keys,
      (Simplified s.1 G ∧ (s.2 = false → s = (G, false))) → ∃ s', simplifyNode s upd = some s' ∧
        Simplified s'.1 G ∧ (s'.2 = false → s' = (G, false)) := by
    intro s upd _ hs
    obtain ⟨G₁, changed₁⟩ := s
    obtain ⟨hsimplified, hchanged⟩ := hs
    obtain ⟨s', hs', hsimplified', hchanged'⟩ := simplifyNode_spec
      hsimplified.isForest hsimplified.ready
    refine ⟨s', hs', hsimplified.trans hsimplified', fun h => ?_⟩
    have heq := hchanged' h
    exact heq.trans (hchanged ((congrArg Prod.snd heq).symm.trans h))
  obtain ⟨s, hs, hsimplified, hchanged⟩ := exists_foldlM_of_keeps _ G.nodes.keys (G, false) hstep
    ⟨.refl hG hR, fun _ => rfl⟩
  exact ⟨s, hs, hsimplified, fun h => congrArg Prod.fst (hchanged h)⟩

end Assure
