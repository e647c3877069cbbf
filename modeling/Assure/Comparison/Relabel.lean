import Assure.Comparison.PostProcess
import Assure.Library.Unfolding

/-!
# Relabelling a subtree

`extract_and_relabel_subtree` copies what is below a node into a graph of its own, with new numbers in the
order of the walk. A node that is met twice is copied twice, so the copy is the tree that unfolds the graph.
It ends exactly if no cycle is in reach (`extractAndRelabelSubtree_returns_iff`).

The numbers of the copy follow the order in which the edges came in (`IsCopy.ordered`), while
the numbers of the graph itself follow the text of the expression.

Both directions are proved for graphs of any shape. Where the walk does not end the interpreter
raises at its limit of nested calls; that is modelled by there being no result at any depth.
-/

namespace Assure

open Assure.Library Assure.Library.OrderedGraph Assure.Library.RoseTree

/-- The variables of the walk: `mapping`, `H` and `next_label`. -/
structure Relabelling where
  mapping : Dict Nat Nat
  H : KqueryGraph
  nextLabel : Nat

/-- A pass of the loop over the children. -/
def relabelChild (G : KqueryGraph) (u myLabel : Nat) (dfs : Nat → Relabelling → Option Relabelling)
    (s : Relabelling) (v : Nat) : Option Relabelling := do
  let s ← dfs v s
  let label ← s.mapping.get? v
  let data ← G.edges.get? (u, v)
  return { s with H := s.H.addEdge myLabel label data }

/-- **`dfs`**, with a bound for the depth. -/
def relabelDfs (G : KqueryGraph) : Nat → Nat → Relabelling → Option Relabelling
  | 0, _, _ => none
  | fuel + 1, u, s => do
    let attributes ← G.nodes.get? u
    (G.successors u).foldlM (relabelChild G u s.nextLabel (relabelDfs G fuel))
      ⟨s.mapping.insert u s.nextLabel, s.H.addNode s.nextLabel attributes, s.nextLabel + 1⟩

/-- It raises for a root that is not there. -/
def extractAndRelabelSubtree (G : KqueryGraph) (fuel root : Nat) : Option KqueryGraph :=
  if root ∈ G then (relabelDfs G fuel root ⟨.empty, .empty, 0⟩).map Relabelling.H else none

/-! ## The copy -/

section Copy

variable {G : KqueryGraph}

/-- The attributes of a node that is there. -/
def attributesOf (G : KqueryGraph) (n : Nat) : NodeAttributes := (G.nodes.get? n).getD default

/-- The label of an edge that is there. -/
def edgeLabel (G : KqueryGraph) (u v : Nat) : Option String := (G.edges.get? (u, v)).getD none

/-- A node of the graph has the attributes that the copy reads. -/
theorem get?_of_mem {n : Nat} (h : n ∈ G) : G.nodes.get? n = some (attributesOf G n) := by
  cases hget : G.nodes.get? n with
  | none => exact absurd h ((G.nodes.get?_eq_none_iff n).mp hget)
  | some a => rw [attributesOf, hget, Option.getD_some]

/-- An edge of the graph has the label that the copy reads. -/
theorem get?_of_edge {u v : Nat} (h : G.Edge u v) : G.edges.get? (u, v) = some (edgeLabel G u v) := by
  cases hget : G.edges.get? (u, v) with
  | none => exact absurd h ((G.edges.get?_eq_none_iff _).mp hget)
  | some d => rw [edgeLabel, hget, Option.getD_some]

/-- The copies of nodes, numbered from `k` on. -/
def numberedNodes (G : KqueryGraph) (k : Nat) (ns : List Nat) : List (Nat × NodeAttributes) :=
  (ns.zipIdx k).map fun p => (p.2, attributesOf G p.1)

/-- Numbering two lists of nodes goes on with the second where the first ended. -/
theorem numberedNodes_append (k : Nat) (ns ms : List Nat) :
    numberedNodes G k (ns ++ ms) = numberedNodes G k ns ++ numberedNodes G (k + ns.length) ms := by
  rw [numberedNodes, List.zipIdx_append, List.map_append]
  rfl

/-- The next label is new. -/
def Relabelling.Fresh (s : Relabelling) : Prop := ∀ n ∈ s.H, n < s.nextLabel

/-- **Nodes copied**, with the edges between their copies. -/
structure Copied (G : KqueryGraph) (ns : List Nat) (links : List ((Nat × Nat) × Option String))
    (s s' : Relabelling) : Prop where
  next : s'.nextLabel = s.nextLabel + ns.length
  nodes : s'.H.nodes.entries = s.H.nodes.entries ++ numberedNodes G s.nextLabel ns
  edges : s'.H.edges.entries = s.H.edges.entries ++ links
  mapping : ∀ x ∉ ns, s'.mapping.get? x = s.mapping.get? x

/-- After copying, the new graph has the nodes it had and one for every number given out since. -/
theorem Copied.mem_iff {ns : List Nat} {links : List ((Nat × Nat) × Option String)} {s s' : Relabelling}
    (h : Copied G ns links s s') {n : Nat} :
    n ∈ s'.H ↔ n ∈ s.H ∨ s.nextLabel ≤ n ∧ n < s'.nextLabel := by
  have hkeys : s'.H.nodes.keys = s.H.nodes.keys ++ (ns.zipIdx s.nextLabel).map Prod.snd := by
    rw [Dict.keys, h.nodes, numberedNodes, List.map_append, List.map_map, Dict.keys]
    rfl
  rw [OrderedGraph.mem_iff, hkeys, List.mem_append, List.zipIdx_map_snd, List.mem_range'_1, h.next]
  rfl

/-- Copying keeps the next number above all numbers in use. -/
theorem Copied.fresh {ns : List Nat} {links : List ((Nat × Nat) × Option String)} {s s' : Relabelling}
    (h : Copied G ns links s s') (hs : s.Fresh) : s'.Fresh := by
  intro n hn
  rw [h.next]
  rcases h.mem_iff.mp hn with hn | ⟨-, hlt⟩
  · have := hs n hn
    omega
  · rwa [← h.next]

/-- Copying one list of nodes and then another copies both. -/
theorem Copied.trans {ns ms : List Nat} {links links' : List ((Nat × Nat) × Option String)}
    {s s' s'' : Relabelling} (h : Copied G ns links s s') (h' : Copied G ms links' s' s'') :
    Copied G (ns ++ ms) (links ++ links') s s'' where
  next := by rw [h'.next, h.next, List.length_append, Nat.add_assoc]
  nodes := by rw [h'.nodes, h.nodes, numberedNodes_append, h.next, List.append_assoc]
  edges := by rw [h'.edges, h.edges, List.append_assoc]
  mapping x hx := by
    rw [List.mem_append, not_or] at hx
    rw [h'.mapping x hx.2, h.mapping x hx.1]

/-- A node with the next label. -/
theorem copied_addNode {s : Relabelling} (hs : s.Fresh) {u : Nat} :
    Copied G [u] [] s ⟨s.mapping.insert u s.nextLabel, s.H.addNode s.nextLabel (attributesOf G u),
      s.nextLabel + 1⟩ where
  next := rfl
  nodes := Dict.entries_setdefault_of_notMem (fun h => Nat.lt_irrefl _ (hs _ h)) _
  edges := (List.append_nil _).symm
  mapping x hx := by
    rw [Dict.get?_insert, if_neg (by simpa using hx)]

mutual

/-- **The walk copies the tree that unfolds the graph.** -/
theorem relabelDfs_copied : ∀ (t : RoseTree Nat) (fuel : Nat) (s : Relabelling), Unfolds G.successors t →
    t.label ∈ G → t.labels.length ≤ fuel → s.Fresh → ∃ s', relabelDfs G fuel t.label s = some s' ∧
      Copied G t.labels (preorderLinks (edgeLabel G) s.nextLabel t) s s' ∧
      s'.mapping.get? t.label = some s.nextLabel
  | node u cs, 0, s, _, _, hfuel, _ => by
    rw [labels_node, List.length_cons] at hfuel
    omega
  | node u cs, fuel + 1, s, h, hu, hfuel, hs => by
    obtain ⟨hcs, hunfolds⟩ := unfolds_node.mp h
    have hstart := copied_addNode (G := G) hs (u := u)
    obtain ⟨s', hs', hcopied⟩ := foldlM_relabelChild_copied u s.nextLabel fuel cs
      ⟨s.mapping.insert u s.nextLabel, s.H.addNode s.nextLabel (attributesOf G u), s.nextLabel + 1⟩
      hunfolds (fun c hc => mem_successors.mp (hcs ▸ List.mem_map_of_mem hc))
      (by rw [labels_node, List.length_cons] at hfuel; omega) (hstart.fresh hs)
      (hstart.mem_iff.mpr (.inr ⟨Nat.le_refl _, Nat.lt_succ_self _⟩)) (Nat.lt_succ_self _)
    have hmapping := hcopied.mapping u fun hmem => by
      obtain ⟨c, hc, huc⟩ := List.mem_flatMap.mp hmem
      exact h.root_notMem hc huc
    refine ⟨s', ?_, ?_, ?_⟩
    · show relabelDfs G (fuel + 1) u s = some s'
      rw [relabelDfs, get?_of_mem (show u ∈ G from hu), ← hcs]
      exact hs'
    · rw [labels_node, preorderLinks]
      exact hstart.trans hcopied
    · show s'.mapping.get? u = some s.nextLabel
      rw [hmapping, Dict.get?_insert, if_pos rfl]

/-- Copying the operands of a node that has its new number already. The induction is over the
operands, and each of them copies a tree below. -/
theorem foldlM_relabelChild_copied (u k fuel : Nat) : ∀ (cs : List (RoseTree Nat)) (s : Relabelling),
    (∀ c ∈ cs, Unfolds G.successors c) → (∀ c ∈ cs, G.Edge u c.label) →
    (cs.flatMap labels).length ≤ fuel → s.Fresh → k ∈ s.H → k < s.nextLabel →
    ∃ s', (cs.map label).foldlM (relabelChild G u k (relabelDfs G fuel)) s = some s' ∧
      Copied G (cs.flatMap labels) (preorderLinksAll (edgeLabel G) u k s.nextLabel cs) s s'
  | [], s, _, _, _, _, _, _ => ⟨s, rfl, rfl, by simp [numberedNodes], by simp [preorderLinksAll], fun _ _ => rfl⟩
  | c :: cs, s, h, hedge, hfuel, hs, hk, hlt => by
    rw [List.flatMap_cons, List.length_append] at hfuel
    have hc := hedge c List.mem_cons_self
    have hpos : 0 < c.labels.length := List.length_pos_of_mem c.label_mem_labels
    obtain ⟨s₁, hs₁, hcopied, hmapping⟩ := relabelDfs_copied c fuel s (h c List.mem_cons_self) hc.right
      (by omega) hs
    have hk₁ : k ∈ s₁.H := hcopied.mem_iff.mpr (.inl hk)
    have hv₁ : s.nextLabel ∈ s₁.H := hcopied.mem_iff.mpr (.inr ⟨Nat.le_refl _, by rw [hcopied.next]; omega⟩)
    -- no edge leads from the node to the copy of its child yet
    have hnew : (k, s.nextLabel) ∉ s₁.H.edges.keys := by
      rw [Dict.keys, hcopied.edges, List.map_append, List.mem_append]
      intro hmem
      rcases hmem with hmem | hmem
      · exact Nat.lt_irrefl _ (hs _ (s.H.ends _ hmem).2)
      · obtain ⟨e, he, heq⟩ := List.mem_map.mp hmem
        have hbounds := mem_preorderLinks he
        rw [heq] at hbounds
        omega
    have hlinked : Copied G c.labels (preorderLinks (edgeLabel G) s.nextLabel c ++
        [((k, s.nextLabel), edgeLabel G u c.label)]) s
        { s₁ with H := s₁.H.addEdge k s.nextLabel (edgeLabel G u c.label) } :=
      { next := hcopied.next
        nodes := by
          rw [show (s₁.H.addEdge k s.nextLabel (edgeLabel G u c.label)).nodes = s₁.H.nodes from
            nodes_addEdge hk₁ hv₁ _]
          exact hcopied.nodes
        edges := by
          rw [← List.append_assoc, ← hcopied.edges]
          exact Dict.entries_setdefault_of_notMem hnew _
        mapping := hcopied.mapping }
    obtain ⟨s', hs', hrest⟩ := foldlM_relabelChild_copied u k fuel cs
      { s₁ with H := s₁.H.addEdge k s.nextLabel (edgeLabel G u c.label) }
      (fun d hd => h d (List.mem_cons_of_mem _ hd)) (fun d hd => hedge d (List.mem_cons_of_mem _ hd))
      (by omega) (hlinked.fresh hs) (hlinked.mem_iff.mpr (.inl hk)) (by rw [hlinked.next]; omega)
    refine ⟨s', ?_, ?_⟩
    · have hstep : relabelChild G u k (relabelDfs G fuel) s c.label =
          some { s₁ with H := s₁.H.addEdge k s.nextLabel (edgeLabel G u c.label) } := by
        rw [relabelChild, hs₁]
        simp only [Option.bind_eq_bind, Option.bind_some, hmapping, get?_of_edge hc]
        rfl
      rw [List.map_cons, List.foldlM_cons, hstep]
      exact hs'
    · rw [List.flatMap_cons, preorderLinksAll]
      have htrans := hlinked.trans hrest
      rwa [hlinked.next] at htrans

end

/-- **A walk that ends has gone over a tree.** -/
theorem unfolds_of_relabelDfs : ∀ (fuel u : Nat) (s s' : Relabelling), relabelDfs G fuel u s = some s' →
    ∃ t : RoseTree Nat, t.label = u ∧ Unfolds G.successors t
  | 0, _, _, _, h => by
    rw [relabelDfs] at h
    cases h
  | fuel + 1, u, s, s', h => by
    rw [relabelDfs] at h
    obtain ⟨attributes, -, h⟩ := Option.bind_eq_some_iff.mp h
    have hall : ∀ (vs : List Nat) (r r' : Relabelling),
        vs.foldlM (relabelChild G u s.nextLabel (relabelDfs G fuel)) r = some r' →
          ∃ cs : List (RoseTree Nat), cs.map label = vs ∧ ∀ c ∈ cs, Unfolds G.successors c := by
      intro vs
      induction vs with
      | nil => exact fun _ _ _ => ⟨[], rfl, by simp⟩
      | cons v vs ih =>
        intro r r' h
        rw [List.foldlM_cons] at h
        obtain ⟨r₁, hr₁, hrest⟩ := Option.bind_eq_some_iff.mp h
        obtain ⟨r₂, hr₂, -⟩ := Option.bind_eq_some_iff.mp hr₁
        obtain ⟨t, rfl, ht⟩ := unfolds_of_relabelDfs fuel v r r₂ hr₂
        obtain ⟨cs, rfl, hcs⟩ := ih r₁ r' hrest
        refine ⟨t :: cs, rfl, fun c hc => ?_⟩
        rcases List.mem_cons.mp hc with rfl | hc
        · exact ht
        · exact hcs c hc
    obtain ⟨cs, hcs, hunfolds⟩ := hall _ _ _ h
    exact ⟨node u cs, rfl, unfolds_node.mpr ⟨hcs, hunfolds⟩⟩

variable {root : Nat}

/-- What can be reached is in the graph. -/
theorem exists_unfolds_iff_acyclic (hroot : root ∈ G) :
    (∃ t : RoseTree Nat, t.label = root ∧ Unfolds G.successors t) ↔
      ∀ v, G.Below root v → ∀ w, G.Edge v w → ¬ G.Below w v := by
  rw [exists_unfolds_iff G.nodes.keys.toFinset fun v hv =>
    List.mem_toFinset.mpr (Below.mem_of_left hv hroot)]
  simp only [mem_successors]
  rfl

/-- The empty graph uses no number. -/
theorem fresh_empty : Relabelling.Fresh ⟨.empty, .empty, 0⟩ := fun _ hn => absurd hn List.not_mem_nil

/-- **The copy of the tree that unfolds the graph.** -/
theorem extractAndRelabelSubtree_unfolds {t : RoseTree Nat} (ht : Unfolds G.successors t) (hroot : t.label ∈ G)
    {fuel : Nat} (hfuel : t.labels.length ≤ fuel) : ∃ H, extractAndRelabelSubtree G fuel t.label = some H ∧
      H.nodes.entries = numberedNodes G 0 t.labels ∧
      H.edges.entries = preorderLinks (edgeLabel G) 0 t := by
  obtain ⟨s', hs', hcopied, -⟩ := relabelDfs_copied t fuel _ ht hroot hfuel fresh_empty
  refine ⟨s'.H, by rw [extractAndRelabelSubtree, if_pos hroot, hs', Option.map_some], ?_, ?_⟩
  · rw [hcopied.nodes]
    rfl
  · rw [hcopied.edges]
    rfl

/-- **`extract_and_relabel_subtree` ends** exactly if no cycle can be reached from the root. -/
theorem extractAndRelabelSubtree_returns_iff (hroot : root ∈ G) :
    (∃ fuel H, extractAndRelabelSubtree G fuel root = some H) ↔
      ∀ v, G.Below root v → ∀ w, G.Edge v w → ¬ G.Below w v := by
  rw [← exists_unfolds_iff_acyclic hroot]
  constructor
  · intro h
    obtain ⟨fuel, H, h⟩ := h
    rw [extractAndRelabelSubtree, if_pos hroot] at h
    obtain ⟨s', hs', -⟩ := Option.map_eq_some_iff.mp h
    exact unfolds_of_relabelDfs fuel root _ s' hs'
  · intro h
    obtain ⟨t, rfl, ht⟩ := h
    obtain ⟨H, hH, -⟩ := extractAndRelabelSubtree_unfolds ht hroot (Nat.le_refl _)
    exact ⟨_, H, hH⟩

/-- **A copy of what is below the root**: `ns` are the nodes as the walk meets them, and the number of a copy
is its place there. The children of a copy are numbered in the order in which the edges came in. -/
structure IsCopy (H G : KqueryGraph) (root : Nat) (ns : List Nat) : Prop where
  head : ns.head? = some root
  mem : ∀ n, n ∈ ns ↔ G.Below root n
  nodes : H.nodes.entries = numberedNodes G 0 ns
  isForest : H.IsForest
  ordered : ∀ i, (H.successors i).Pairwise (· < ·)
  successors : ∀ i n, ns[i]? = some n → (H.successors i).map (fun j => ns[j]?) = (G.successors n).map some
  edges : ∀ i j n m, H.Edge i j → ns[i]? = some n → ns[j]? = some m →
    H.edges.get? (i, j) = G.edges.get? (n, m)

/-- The operands of a node are read off the list of edges, in the order in which they were added. -/
theorem successors_eq_targetsOf {H : KqueryGraph} (i : Nat) :
    H.successors i = targetsOf i H.edges.entries := by
  rw [OrderedGraph.successors, Dict.keys, List.filter_map, List.map_map]
  rfl

/-- A graph whose nodes and edges were listed by a walk through an unfolded tree is a copy of the
part that the tree unfolds. -/
theorem isCopy_of_unfolds {t : RoseTree Nat} {H : KqueryGraph} (ht : Unfolds G.successors t)
    (hroot : t.label ∈ G) (hnodes : H.nodes.entries = numberedNodes G 0 t.labels)
    (hedges : H.edges.entries = preorderLinks (edgeLabel G) 0 t) : IsCopy H G t.label t.labels := by
  have hlinks : ∀ {i j}, H.Edge i j → ∃ d, ((i, j), d) ∈ preorderLinks (edgeLabel G) 0 t := by
    intro i j h
    obtain ⟨e, he, heq⟩ := List.mem_map.mp h
    rw [hedges] at he
    exact ⟨e.2, by rwa [← heq]⟩
  have hsuccessors : ∀ i n, t.labels[i]? = some n → (H.successors i).Pairwise (· < ·) ∧
      (H.successors i).map (fun j => t.labels[j]?) = (G.successors n).map some := by
    intro i n hn
    rw [successors_eq_targetsOf, hedges]
    have hplace := @targetsOf_preorderLinks _ _ G.successors (edgeLabel G) 0 i n t ht hn
    rw [Nat.zero_add] at hplace
    exact hplace
  refine
    { head := ?_
      mem := fun n => ht.mem_labels
      nodes := hnodes
      isForest := ⟨?_, id, ?_⟩
      ordered := ?_
      successors := fun i n hn => (hsuccessors i n hn).2
      edges := ?_ }
  · obtain ⟨a, cs⟩ := t
    rw [labels_node]
    rfl
  · intro u u' v h h'
    have htargets : (H.edges.entries.map fun e => e.1.2).Nodup := by
      rw [hedges]
      exact preorderLinks_targets_nodup 0 t
    obtain ⟨e, he, heq⟩ := List.mem_map.mp h
    obtain ⟨e', he', heq'⟩ := List.mem_map.mp h'
    have hsame := List.inj_on_of_nodup_map htargets he he' (by rw [heq, heq'])
    rw [hsame, heq'] at heq
    exact (Prod.mk.inj heq).1.symm
  · intro u v h
    obtain ⟨d, hd⟩ := hlinks h
    exact (mem_preorderLinks hd).2.1
  · intro i
    cases hi : t.labels[i]? with
    | some n => exact (hsuccessors i n hi).1
    | none =>
      have hlength := List.getElem?_eq_none_iff.mp hi
      have hnil : H.successors i = [] := by
        rw [successors_eq_targetsOf, hedges]
        exact targetsOf_eq_nil fun e he => by
          have := mem_preorderLinks he
          omega
      rw [hnil]
      exact .nil
  · intro i j n m hij hn hm
    obtain ⟨d, hd⟩ := hlinks hij
    obtain ⟨n', m', hn', hm', hdata⟩ := data_preorderLinks hd
    rw [Nat.sub_zero] at hn' hm'
    obtain rfl := Option.some.inj (hn.symm.trans hn')
    obtain rfl := Option.some.inj (hm.symm.trans hm')
    have hget : H.edges.get? (i, j) = some d := by
      rw [Dict.get?_eq_some_iff, hedges]
      exact hd
    have hedge : G.Edge n m := by
      have hmap := (hsuccessors i n hn).2
      have hmem : some m ∈ (H.successors i).map fun j => t.labels[j]? :=
        List.mem_map.mpr ⟨j, mem_successors.mpr hij, hm⟩
      rw [hmap] at hmem
      exact mem_successors.mp (by simpa using hmem)
    rw [hget, get?_of_edge hedge]
    exact congrArg some hdata

/-- A forest is acyclic, and the walk is no longer than its nodes. -/
theorem extractAndRelabelSubtree_forest (hG : G.IsForest) (hroot : root ∈ G) : ∃ H ns,
    (∀ fuel, G.nodes.keys.length ≤ fuel → extractAndRelabelSubtree G fuel root = some H) ∧
      IsCopy H G root ns ∧ ns.Nodup := by
  have hacyclic : ∀ v, G.Below root v → ∀ w, G.Edge v w → ¬ G.Below w v :=
    fun _ _ _ hedge => hG.not_below_of_edge hedge
  obtain ⟨t, rfl, ht⟩ := (exists_unfolds_iff_acyclic hroot).mpr hacyclic
  obtain ⟨H, hH, hnodes, hedges⟩ := extractAndRelabelSubtree_unfolds ht hroot (Nat.le_refl _)
  have hnodup := ht.nodup hG
  have hlength : t.labels.length ≤ G.nodes.keys.length := by
    apply (hnodup.subperm fun x hx => ?_).length_le
    exact Below.mem_of_left (ht.mem_labels.mp hx) hroot
  refine ⟨H, t.labels, fun fuel hfuel => ?_, isCopy_of_unfolds ht hroot hnodes hedges, hnodup⟩
  obtain ⟨H', hH', hnodes', hedges'⟩ := extractAndRelabelSubtree_unfolds ht hroot (hlength.trans hfuel)
  rw [hH', OrderedGraph.ext (hnodes'.trans hnodes.symm) (hedges'.trans hedges.symm)]

/-- **`extract_and_relabel_subtree` where it ends** gives a copy of what is below the root, and of a forest
it copies each node once. -/
theorem extractAndRelabelSubtree_isCopy (hroot : root ∈ G)
    (hacyclic : ∀ v, G.Below root v → ∀ w, G.Edge v w → ¬ G.Below w v) : ∃ ns H bound,
      (∀ fuel, bound ≤ fuel → extractAndRelabelSubtree G fuel root = some H) ∧ IsCopy H G root ns ∧
        (G.IsForest → ns.Nodup) := by
  obtain ⟨t, rfl, ht⟩ := (exists_unfolds_iff_acyclic hroot).mpr hacyclic
  obtain ⟨H, hH, hnodes, hedges⟩ := extractAndRelabelSubtree_unfolds ht hroot (Nat.le_refl _)
  refine ⟨t.labels, H, t.labels.length, fun fuel hfuel => ?_, isCopy_of_unfolds ht hroot hnodes hedges,
    fun hG => ht.nodup hG⟩
  obtain ⟨H', hH', hnodes', hedges'⟩ := extractAndRelabelSubtree_unfolds ht hroot hfuel
  rw [hH', OrderedGraph.ext (hnodes'.trans hnodes.symm) (hedges'.trans hedges.symm)]

/-- A node under two parents. -/
def sharedGraph : KqueryGraph where
  nodes := ⟨[(1, ⟨some "Add", none⟩), (2, ⟨some "ZExt", none⟩), (3, ⟨some "SExt", none⟩), (4, ⟨some "x", none⟩)],
    by decide⟩
  edges := ⟨[((1, 2), none), ((1, 3), none), ((2, 4), none), ((3, 4), none)], by decide⟩
  ends := by decide

/-- In the example every edge leads to a node with a larger number. -/
theorem sharedGraph_edge_lt {u v : Nat} (h : sharedGraph.Edge u v) : u < v :=
  (by decide : ∀ e ∈ sharedGraph.edges.keys, e.1 < e.2) (u, v) h

/-- No part of the example is cyclic, since the numbers grow along its edges. -/
theorem sharedGraph_acyclic (v : Nat) (_ : sharedGraph.Below 1 v) (w : Nat) (hedge : sharedGraph.Edge v w) :
    ¬ sharedGraph.Below w v := fun hbelow =>
  absurd (sharedGraph_edge_lt hedge) (Nat.not_lt.mpr (Below.rank_le sharedGraph_edge_lt hbelow))

/-- The hypotheses of the theorem on copies can be met: in the example the copy is made. -/
theorem extractAndRelabelSubtree_sharedGraph : ∃ fuel H, extractAndRelabelSubtree sharedGraph fuel 1 = some H :=
  (extractAndRelabelSubtree_returns_iff (by decide)).mpr sharedGraph_acyclic

/-- In the example a node is reached on two ways and is copied twice. -/
theorem isCopy_sharedGraph : ∃ ns H, IsCopy H sharedGraph 1 ns := by
  obtain ⟨ns, H, _, -, hcopy, -⟩ := extractAndRelabelSubtree_isCopy (by decide) sharedGraph_acyclic
  exact ⟨ns, H, hcopy⟩

/-- The node is copied twice. -/
example : (extractAndRelabelSubtree sharedGraph 4 1).map (·.edges.keys) =
    some [(1, 2), (0, 1), (3, 4), (0, 3)] := by decide +kernel

end Copy

end Assure
