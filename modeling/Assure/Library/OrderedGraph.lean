import Mathlib.Algebra.GroupWithZero.Nat
import Assure.Library.Collections
import Assure.Library.Worklist

/-!
# Graphs that remember the order of insertion

A directed graph as two dictionaries, of its nodes and of its edges, each with data and in the order in
which they came in. An edge has both its ends in the graph.

Adding an edge adds the ends that are missing, without data. Removing a node removes the edges at it, and
a node that is not there cannot be removed. `Below` is reachability along the edges, and `below` computes
it.
-/

namespace Assure.Library

open Relation

/-- **A graph in insertion order**, with data at its nodes and edges. -/
structure OrderedGraph (ν α ε : Type*) where
  nodes : Dict ν α
  edges : Dict (ν × ν) ε
  ends : ∀ e ∈ edges.keys, e.1 ∈ nodes.keys ∧ e.2 ∈ nodes.keys

namespace OrderedGraph

variable {ν α ε : Type*}

/-- `v in G` -/
instance : Membership ν (OrderedGraph ν α ε) := ⟨fun G v => v ∈ G.nodes.keys⟩

/-- There is an edge. -/
def Edge (G : OrderedGraph ν α ε) (u v : ν) : Prop := (u, v) ∈ G.edges.keys

section

variable {G : OrderedGraph ν α ε} {u v : ν}

/-- The vertices of a graph are the keys of its dictionary. -/
theorem mem_iff : v ∈ G ↔ v ∈ G.nodes.keys := Iff.rfl

/-- An edge starts at a vertex of the graph. -/
theorem Edge.left (h : G.Edge u v) : u ∈ G := (G.ends _ h).1

/-- An edge ends at a vertex of the graph. -/
theorem Edge.right (h : G.Edge u v) : v ∈ G := (G.ends _ h).2

/-- Two graphs with the same nodes and edges are the same. -/
theorem ext {G H : OrderedGraph ν α ε} (hnodes : G.nodes.entries = H.nodes.entries)
    (hedges : G.edges.entries = H.edges.entries) : G = H := by
  obtain ⟨⟨nodes, _⟩, ⟨edges, _⟩, _⟩ := G
  obtain ⟨⟨nodes', _⟩, ⟨edges', _⟩, _⟩ := H
  obtain rfl : nodes = nodes' := hnodes
  obtain rfl : edges = edges' := hedges
  rfl

end

variable [DecidableEq ν]

instance (G : OrderedGraph ν α ε) (v : ν) : Decidable (v ∈ G) :=
  inferInstanceAs (Decidable (v ∈ G.nodes.keys))

instance (G : OrderedGraph ν α ε) (u v : ν) : Decidable (G.Edge u v) :=
  inferInstanceAs (Decidable ((u, v) ∈ G.edges.keys))

/-- Where the edges from a node lead, in order. -/
def successors (G : OrderedGraph ν α ε) (u : ν) : List ν :=
  (G.edges.keys.filter fun e => e.1 = u).map Prod.snd

/-- Where the edges to a node come from, in order. -/
def predecessors (G : OrderedGraph ν α ε) (v : ν) : List ν :=
  (G.edges.keys.filter fun e => e.2 = v).map Prod.fst

section Reading

variable {G : OrderedGraph ν α ε} {u v : ν}

/-- The successors of a vertex are what its edges lead to. -/
theorem mem_successors : v ∈ G.successors u ↔ G.Edge u v := by
  simp [successors, Edge]

/-- Its predecessors are where edges to it start. -/
theorem mem_predecessors : u ∈ G.predecessors v ↔ G.Edge u v := by
  simp [predecessors, Edge]

/-- No successor is listed twice. -/
theorem successors_nodup (G : OrderedGraph ν α ε) (u : ν) : (G.successors u).Nodup := by
  apply (G.edges.keys_nodup.filter _).map_on
  intro e he e' he' heq
  have hu : e.1 = u := by simpa using (List.mem_filter.mp he).2
  have hu' : e'.1 = u := by simpa using (List.mem_filter.mp he').2
  exact Prod.ext (hu.trans hu'.symm) heq

/-- No predecessor is listed twice. -/
theorem predecessors_nodup (G : OrderedGraph ν α ε) (v : ν) : (G.predecessors v).Nodup := by
  apply (G.edges.keys_nodup.filter _).map_on
  intro e he e' he' heq
  have hv : e.2 = v := by simpa using (List.mem_filter.mp he).2
  have hv' : e'.2 = v := by simpa using (List.mem_filter.mp he').2
  exact Prod.ext heq (hv.trans hv'.symm)

end Reading

/-! ## What is below a node -/

/-- **Below a node**, or the node itself. -/
def Below (G : OrderedGraph ν α ε) : ν → ν → Prop := Reach G.successors

/-- The nodes below a node, and the node itself. -/
def below (G : OrderedGraph ν α ε) (root : ν) : Finset ν :=
  match whileLoop (fun s => !s.queue.isEmpty) (Worklist.pass G.successors)
    (1 + (G.nodes.keys.map fun v => (G.successors v).length).sum) ⟨[root], ∅⟩ with
  | some s => s.visited
  | none => ∅

section Below

variable {G : OrderedGraph ν α ε} {u v w : ν}

/-- Everything lies below itself, on the empty path. -/
theorem Below.refl (u : ν) : G.Below u u := Reach.refl u

/-- What lies below something below lies below. -/
theorem Below.trans (h : G.Below u v) (h' : G.Below v w) : G.Below u w := Reach.trans h h'

/-- The end of an edge lies below its start. -/
theorem Below.of_edge (h : G.Edge u v) : G.Below u v := Reach.edge (mem_successors.mpr h)

/-- What lies below a vertex of the graph is one. -/
theorem Below.mem_of_left (h : G.Below u v) (hu : u ∈ G) : v ∈ G :=
  h.closed (P := (· ∈ G)) (fun _ _ _ hv => (mem_successors.mp hv).right) hu

/-- More edges put no vertex out of reach. -/
theorem Below.mono {G' : OrderedGraph ν α ε} (hedge : ∀ {u v}, G.Edge u v → G'.Edge u v) (h : G.Below u v) :
    G'.Below u v :=
  Relation.ReflTransGen.mono (fun _ _ h => mem_successors.mpr (hedge (mem_successors.mp h))) _ _ h

/-- The last edge of a path. -/
theorem Below.eq_or_parent (h : G.Below u v) : u = v ∨ ∃ w, G.Below u w ∧ G.Edge w v := by
  rcases ReflTransGen.cases_tail h with rfl | ⟨w, huw, hwv⟩
  · exact .inl rfl
  · exact .inr ⟨w, huw, mem_successors.mp hwv⟩

/-- The first edge of a path. -/
theorem Below.eq_or_child (h : G.Below u v) : u = v ∨ ∃ w, G.Edge u w ∧ G.Below w v := by
  rcases ReflTransGen.cases_head h with rfl | ⟨w, huw, hwv⟩
  · exact .inl rfl
  · exact .inr ⟨w, mem_successors.mp huw, hwv⟩

/-- What is below a child has a parent. -/
theorem Below.exists_parent (hedge : G.Edge u v) (h : G.Below v w) : ∃ p, G.Edge p w := by
  rcases h.eq_or_parent with rfl | ⟨p, -, hp⟩
  · exact ⟨u, hedge⟩
  · exact ⟨p, hp⟩

/-- Counting the edges by where they start. -/
theorem sum_successors (G : OrderedGraph ν α ε) :
    G.nodes.keys.toFinset.sum (fun v => (G.successors v).length) =
      (G.nodes.keys.map fun v => (G.successors v).length).sum :=
  List.sum_toFinset _ G.nodes.keys_nodup

/-- The search finds what lies below a vertex and nothing else. -/
theorem mem_below (hu : u ∈ G) : v ∈ G.below u ↔ G.Below u v := by
  obtain ⟨s, hs, hvisited⟩ := worklist_spec G.successors G.nodes.keys.toFinset
    (fun _ _ w hw => List.mem_toFinset.mpr (mem_successors.mp hw).right) [u]
    (fun r hr => List.mem_toFinset.mpr (by rw [List.mem_singleton.mp hr]; exact hu))
  rw [List.length_singleton, sum_successors] at hs
  rw [below, hs]
  simp only [hvisited, List.mem_singleton, exists_eq_left]
  rfl

end Below

/-! ## Changes -/

/-- No nodes and no edges. -/
def empty : OrderedGraph ν α ε := ⟨.empty, .empty, fun _ he => absurd he List.not_mem_nil⟩

/-- A node that is not there yet. -/
def addNode (G : OrderedGraph ν α ε) (v : ν) (a : α) : OrderedGraph ν α ε where
  nodes := G.nodes.setdefault v a
  edges := G.edges
  ends e he := by
    simp only [Dict.mem_keys_setdefault]
    exact ⟨.inr (G.ends e he).1, .inr (G.ends e he).2⟩

/-- An edge that is not there yet, and the ends that are not. -/
def addEdge [Inhabited α] (G : OrderedGraph ν α ε) (u v : ν) (d : ε) : OrderedGraph ν α ε where
  nodes := (G.nodes.setdefault u default).setdefault v default
  edges := G.edges.setdefault (u, v) d
  ends e he := by
    simp only [Dict.mem_keys_setdefault] at he ⊢
    rcases he with rfl | he
    · exact ⟨.inr (.inl rfl), .inl rfl⟩
    · exact ⟨.inr (.inr (G.ends e he).1), .inr (.inr (G.ends e he).2)⟩

/-- Without some nodes, if they are there. -/
def removeNodesFrom (G : OrderedGraph ν α ε) (vs : Finset ν) : OrderedGraph ν α ε where
  nodes := G.nodes.keep (· ∉ vs)
  edges := G.edges.keep fun e => e.1 ∉ vs ∧ e.2 ∉ vs
  ends e he := by
    simp only [Dict.keys_keep, List.mem_filter, decide_eq_true_eq] at he ⊢
    exact ⟨⟨(G.ends e he.1).1, he.2.1⟩, ⟨(G.ends e he.1).2, he.2.2⟩⟩

/-- Without the nodes below a root that is there. -/
def removeSubtree (G : OrderedGraph ν α ε) (root : ν) : OrderedGraph ν α ε :=
  if root ∈ G then G.removeNodesFrom (G.below root) else G

/-- Without a node that is there. -/
def removeNode (G : OrderedGraph ν α ε) (v : ν) : Option (OrderedGraph ν α ε) :=
  if v ∈ G then some (G.removeNodesFrom {v}) else none

section Changes

variable {G : OrderedGraph ν α ε} {u v x y : ν}

/-- Adding an edge adds that edge alone. -/
theorem edge_addEdge [Inhabited α] {d : ε} :
    (G.addEdge u v d).Edge x y ↔ x = u ∧ y = v ∨ G.Edge x y := by
  rw [Edge, addEdge, Dict.mem_keys_setdefault, Prod.mk.injEq]
  rfl

/-- An edge between nodes that are there. -/
theorem nodes_addEdge [Inhabited α] (hu : u ∈ G) (hv : v ∈ G) (d : ε) :
    (G.addEdge u v d).nodes = G.nodes := by
  show (G.nodes.setdefault u default).setdefault v default = G.nodes
  rw [Dict.setdefault_of_mem hu, Dict.setdefault_of_mem hv]

/-- Removing vertices leaves the others. -/
theorem mem_removeNodesFrom {vs : Finset ν} : x ∈ G.removeNodesFrom vs ↔ x ∈ G ∧ x ∉ vs := by
  rw [mem_iff, removeNodesFrom, Dict.keys_keep, List.mem_filter, decide_eq_true_eq]
  rfl

/-- The edges between the others stay. -/
theorem edge_removeNodesFrom {vs : Finset ν} :
    (G.removeNodesFrom vs).Edge x y ↔ G.Edge x y ∧ x ∉ vs ∧ y ∉ vs := by
  rw [Edge, removeNodesFrom, Dict.keys_keep, List.mem_filter, decide_eq_true_eq]
  rfl

/-- The vertices that stay keep their order and their data. -/
theorem entries_removeNodesFrom {vs : Finset ν} : (G.removeNodesFrom vs).nodes.entries =
    G.nodes.entries.filter fun e => e.1 ∉ vs := rfl

/-- So do the edges that stay. -/
theorem edges_removeNodesFrom {vs : Finset ν} : (G.removeNodesFrom vs).edges.entries =
    G.edges.entries.filter fun e => e.1.1 ∉ vs ∧ e.1.2 ∉ vs := rfl

/-- Removing twice is removing both at once. -/
theorem removeNodesFrom_removeNodesFrom (vs ws : Finset ν) :
    (G.removeNodesFrom vs).removeNodesFrom ws = G.removeNodesFrom (vs ∪ ws) := by
  apply ext
  · simp only [entries_removeNodesFrom, List.filter_filter]
    apply List.filter_congr
    intro e _
    rw [Bool.eq_iff_iff]
    simp [and_comm]
  · simp only [edges_removeNodesFrom, List.filter_filter]
    apply List.filter_congr
    intro e _
    rw [Bool.eq_iff_iff]
    simp
    tauto

/-- Only what is there matters. -/
theorem removeNodesFrom_congr {vs ws : Finset ν} (h : ∀ v ∈ G, v ∈ vs ↔ v ∈ ws) :
    G.removeNodesFrom vs = G.removeNodesFrom ws := by
  apply ext
  · simp only [entries_removeNodesFrom]
    apply List.filter_congr
    intro e he
    rw [decide_eq_decide, h e.1 (List.mem_map_of_mem he)]
  · simp only [edges_removeNodesFrom]
    apply List.filter_congr
    intro e he
    obtain ⟨hleft, hright⟩ := G.ends e.1 (List.mem_map_of_mem he)
    rw [decide_eq_decide, h e.1.1 hleft, h e.1.2 hright]

/-- Removing nothing changes nothing. -/
theorem removeNodesFrom_empty : G.removeNodesFrom ∅ = G := by
  apply ext
  · simp [entries_removeNodesFrom]
  · simp [edges_removeNodesFrom]

/-- **A path to a node that stays, stays**, where what is below a removed node is removed. -/
theorem below_removeNodesFrom {vs : Finset ν} (hvs : ∀ {x y}, x ∈ vs → G.Edge x y → y ∈ vs)
    (hv : v ∉ vs) : (G.removeNodesFrom vs).Below u v ↔ G.Below u v := by
  constructor
  · intro h
    clear hv
    induction h with
    | refl => exact .refl _
    | tail _ hedge ih => exact ih.tail (mem_successors.mpr (edge_removeNodesFrom.mp (mem_successors.mp hedge)).1)
  · intro h
    induction h with
    | refl => exact .refl _
    | @tail w y _ hedge ih =>
      have hedge := mem_successors.mp hedge
      have hw : w ∉ vs := fun hw => hv (hvs hw hedge)
      exact (ih hw).tail (mem_successors.mpr (edge_removeNodesFrom.mpr ⟨hedge, hw, hv⟩))

/-- **Without several subtrees**, one after the other. -/
theorem foldl_removeSubtree : ∀ (roots : List ν) (G : OrderedGraph ν α ε), ∃ vs : Finset ν,
    roots.foldl removeSubtree G = G.removeNodesFrom vs ∧
      ∀ x, x ∈ vs ↔ ∃ r ∈ roots, r ∈ G ∧ G.Below r x
  | [], G => ⟨∅, removeNodesFrom_empty.symm, by simp⟩
  | root :: roots, G => by
    obtain ⟨vs, hvs, hmem⟩ := foldl_removeSubtree roots (G.removeSubtree root)
    by_cases hroot : root ∈ G
    · have hstep : G.removeSubtree root = G.removeNodesFrom (G.below root) := if_pos hroot
      refine ⟨G.below root ∪ vs, ?_, ?_⟩
      · rw [List.foldl_cons, hvs, hstep, removeNodesFrom_removeNodesFrom]
      · have hclosed : ∀ {x y}, x ∈ G.below root → G.Edge x y → y ∈ G.below root := by
          intro x y hx hedge
          rw [mem_below hroot] at hx ⊢
          exact hx.tail (mem_successors.mpr hedge)
        intro x
        simp only [Finset.mem_union, hmem, List.mem_cons, exists_eq_or_imp, hroot, true_and, hstep,
          mem_removeNodesFrom, mem_below hroot]
        by_cases hx : G.Below root x
        · simp [hx]
        · simp only [hx, false_or]
          apply exists_congr
          intro r
          rw [below_removeNodesFrom hclosed (by rwa [mem_below hroot])]
          constructor
          · intro h
            exact ⟨h.1, h.2.1.1, h.2.2⟩
          · intro h
            exact ⟨h.1, ⟨h.2.1, fun hr => hx (hr.trans h.2.2)⟩, h.2.2⟩
    · have hstep : G.removeSubtree root = G := if_neg hroot
      rw [hstep] at hvs hmem
      refine ⟨vs, by rw [List.foldl_cons, hstep, hvs], ?_⟩
      intro x
      simp only [hmem, List.mem_cons, exists_eq_or_imp, hroot, false_and, false_or]

/-- Removing one vertex of the graph does not raise. -/
theorem removeNode_of_mem (h : v ∈ G) : G.removeNode v = some (G.removeNodesFrom {v}) := if_pos h

/-- A vertex that stays keeps its successors that stay, in their order. -/
theorem successors_removeNodesFrom {vs : Finset ν} (hu : u ∉ vs) :
    (G.removeNodesFrom vs).successors u = (G.successors u).filter (· ∉ vs) := by
  rw [successors, removeNodesFrom, Dict.keys_keep, List.filter_filter, successors, List.filter_map,
    List.filter_filter]
  apply congrArg
  apply List.filter_congr
  intro e _
  by_cases he : e.1 = u
  · simp [he, hu]
  · simp [he]

end Changes

end OrderedGraph

end Assure.Library
