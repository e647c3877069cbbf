import Assure.Library.Forest
import Assure.Library.Numbering

/-!
# The graph of a numbered tree

The labels of a tree have numbers, all different. Its graph has a node for each, in the order of the
numbers, and an edge from each to its children in their order. It is a forest, what is below a node are the
numbers of the subtree there, and where the numbers of a child come before those of the next one it is laid
out.
-/

namespace Assure.Library

namespace RoseTree

variable {α β ν ε : Type*}

/-- The roots of the subtrees have the labels of the tree. -/
theorem map_label_subtrees (t : RoseTree α) : t.subtrees.map label = t.labels := by
  induction t using induct with
  | h a cs ih =>
    rw [subtrees, subtreesAll_eq, List.map_cons, labels_node, List.map_flatMap, List.flatMap_def,
      List.flatMap_def, List.map_congr_left ih]
    rfl

/-- A tree is a subtree of itself. -/
theorem self_mem_subtrees : ∀ t : RoseTree α, t ∈ t.subtrees
  | node a cs => by
    rw [subtrees]
    exact List.mem_cons_self

/-- A subtree of a subtree is one. -/
theorem mem_subtrees_trans {s t u : RoseTree α} (h : s ∈ t.subtrees) (h' : t ∈ u.subtrees) :
    s ∈ u.subtrees := by
  induction u using induct with
  | h a cs ih =>
    rcases mem_subtrees_node.mp h' with rfl | ⟨c, hc, h'⟩
    · exact h
    · exact mem_subtrees_node.mpr (.inr ⟨c, hc, ih c hc h'⟩)

/-- The trees below the root are subtrees. -/
theorem child_mem_subtrees {c : RoseTree α} : ∀ {t : RoseTree α}, c ∈ t.children → c ∈ t.subtrees
  | node _ _, h => mem_subtrees_node.mpr (.inr ⟨c, h, c.self_mem_subtrees⟩)

/-- The labels of a subtree stand in a row among those of the tree. -/
theorem labels_sublist {s t : RoseTree α} (h : s ∈ t.subtrees) : s.labels.Sublist t.labels := by
  induction t using induct with
  | h a cs ih =>
    rcases mem_subtrees_node.mp h with rfl | ⟨c, hc, h⟩
    · exact .refl _
    · rw [labels_node]
      have hflat : c.labels.Sublist (cs.flatMap labels) :=
        List.sublist_flatten_of_mem (List.mem_map_of_mem hc)
      exact ((ih c hc h).trans hflat).cons a

/-- Every label but the root's is a child's. -/
theorem childLabels_perm (t : RoseTree α) :
    (t.subtrees.flatMap fun s => s.children.map label).Perm t.labels.tail := by
  induction t using induct with
  | h a cs ih =>
    rw [subtrees, subtreesAll_eq, List.flatMap_cons, labels_node, List.tail_cons, List.flatMap_assoc]
    have hall : ∀ cs : List (RoseTree α), (∀ c ∈ cs,
        (c.subtrees.flatMap fun s => s.children.map label).Perm c.labels.tail) →
        (cs.map label ++ cs.flatMap fun c => c.subtrees.flatMap fun s => s.children.map label).Perm
          (cs.flatMap labels) := by
      intro cs
      induction cs with
      | nil => exact fun _ => .nil
      | cons c cs ihcs =>
        intro h
        have hlabels : c.labels = c.label :: c.labels.tail := by
          cases c with
          | node b ds =>
            rw [labels_node]
            rfl
        rw [List.map_cons, List.flatMap_cons, List.flatMap_cons, hlabels, List.cons_append, List.cons_append]
        refine .cons _ ((List.perm_append_comm_assoc _ _ _).trans ?_)
        exact (h c List.mem_cons_self).append (ihcs fun d hd => h d (List.mem_cons_of_mem c hd))
    exact hall cs ih

/-- The edges to the children, with what is at them. -/
def childLinks (id : α → ν) (edge : α → ε) (t : RoseTree α) : List ((ν × ν) × ε) :=
  t.subtrees.flatMap fun s => s.children.map fun c => ((id s.label, id c.label), edge c.label)

/-- There is a link from each label to those right below it. -/
theorem mem_childLinks {id : α → ν} {edge : α → ε} {t : RoseTree α} {u v : ν} :
    (u, v) ∈ (t.childLinks id edge).map Prod.fst ↔
      ∃ s ∈ t.subtrees, ∃ c ∈ s.children, id s.label = u ∧ id c.label = v := by
  simp only [childLinks, List.map_flatMap, List.map_map, List.mem_flatMap, List.mem_map,
    Function.comp_apply, Prod.mk.injEq]

/-- The links lead to everything below the root, in preorder. -/
theorem childLinks_snd (id : α → ν) (edge : α → ε) (t : RoseTree α) :
    ((t.childLinks id edge).map Prod.fst).map Prod.snd =
      (t.subtrees.flatMap fun s => s.children.map label).map id := by
  rw [childLinks, List.map_map, List.map_flatMap, List.map_flatMap]
  simp only [List.map_map]
  rfl

/-- A subtree is found by the number of its root. -/
theorem eq_of_mem_subtrees {id : α → ν} {t : RoseTree α} (hids : (t.labels.map id).Nodup)
    {s s' : RoseTree α} (hs : s ∈ t.subtrees) (hs' : s' ∈ t.subtrees) (h : id s.label = id s'.label) :
    s = s' := by
  rw [← t.map_label_subtrees, List.map_map] at hids
  exact List.inj_on_of_nodup_map hids hs hs' h

section Graph

variable (id : α → ν) (data : α → β) (edge : α → ε) (t : RoseTree α) (hids : (t.labels.map id).Nodup)

include hids

/-- No two links lead to the same vertex, where the numbers are distinct. -/
theorem childLinks_targets_nodup : (((t.childLinks id edge).map Prod.fst).map Prod.snd).Nodup := by
  rw [childLinks_snd]
  exact (t.childLabels_perm.map id).nodup_iff.mpr (hids.sublist ((List.tail_sublist _).map id))

variable [LinearOrder ν]

/-- **The graph of a tree with numbers.** -/
def toGraph : OrderedGraph ν β ε where
  nodes :=
    { entries := (sortedBy id t.labels).map fun a => (id a, data a)
      nodup := by
        rw [List.map_map]
        exact ((sortedBy_perm id _).map _).nodup_iff.mpr hids }
  edges := ⟨t.childLinks id edge, (t.childLinks_targets_nodup id edge hids).of_map _⟩
  ends := by
    intro e he
    obtain ⟨s, hs, c, hc, hu, hv⟩ := mem_childLinks.mp he
    have hkeys : ∀ {a}, a ∈ t.labels →
        id a ∈ ((sortedBy id t.labels).map fun a => (id a, data a)).map Prod.fst := by
      intro a ha
      rw [List.map_map]
      exact List.mem_map.mpr ⟨a, mem_sortedBy.mpr ha, rfl⟩
    refine ⟨hu ▸ hkeys ?_, hv ▸ hkeys ?_⟩
    · exact (labels_sublist hs).subset s.label_mem_labels
    · exact (labels_sublist (mem_subtrees_trans (child_mem_subtrees hc) hs)).subset c.label_mem_labels

variable {id data edge t hids} {u v : ν}

/-- The edges of the graph of a numbered tree are its links. -/
theorem edge_toGraph : (t.toGraph id data edge hids).Edge u v ↔
    ∃ s ∈ t.subtrees, ∃ c ∈ s.children, id s.label = u ∧ id c.label = v :=
  mem_childLinks

/-- **What is below a node are the numbers of the subtree there.** -/
theorem below_toGraph {s : RoseTree α} (hs : s ∈ t.subtrees) :
    (t.toGraph id data edge hids).Below (id s.label) v ↔ v ∈ s.labels.map id := by
  constructor
  · intro h
    obtain ⟨s', hs', rfl⟩ : ∃ s' ∈ s.subtrees, id s'.label = v := by
      induction h with
      | refl => exact ⟨s, s.self_mem_subtrees, rfl⟩
      | tail _ hstep ih =>
        obtain ⟨s', hs', rfl⟩ := ih
        obtain ⟨s'', hs'', c, hc, heq, rfl⟩ := edge_toGraph.mp (OrderedGraph.mem_successors.mp hstep)
        obtain rfl := eq_of_mem_subtrees hids hs'' (mem_subtrees_trans hs' hs) heq
        exact ⟨c, mem_subtrees_trans (child_mem_subtrees hc) hs', rfl⟩
    exact List.mem_map_of_mem ((labels_sublist hs').subset s'.label_mem_labels)
  · intro h
    obtain ⟨a, ha, rfl⟩ := List.mem_map.mp h
    rw [← s.map_label_subtrees] at ha
    obtain ⟨s', hs', rfl⟩ := List.mem_map.mp ha
    clear h ha
    induction s using induct with
    | h a cs ih =>
      rcases mem_subtrees_node.mp hs' with rfl | ⟨c, hc, hs'⟩
      · exact .refl _
      · have hcs : c ∈ (node a cs).children := hc
        have hstep := ih c hc (mem_subtrees_trans (child_mem_subtrees hcs) hs) hs'
        exact (OrderedGraph.Below.of_edge (edge_toGraph.mpr ⟨_, hs, c, hcs, rfl, rfl⟩)).trans hstep

/-- **The graph of a tree is a forest.** -/
theorem isForest_toGraph : (t.toGraph id data edge hids).IsForest where
  parent := by
    intro u u' v h h'
    exact (Prod.mk.inj (List.inj_on_of_nodup_map (t.childLinks_targets_nodup id edge hids) h h' rfl)).1
  acyclic := by
    refine ⟨fun v => (t.labels.map id).idxOf v, fun {u v} h => ?_⟩
    obtain ⟨s, hs, c, hc, rfl, rfl⟩ := edge_toGraph.mp h
    have hpairwise : (t.labels.map id).Pairwise fun u v =>
        (t.labels.map id).idxOf u < (t.labels.map id).idxOf v := by
      rw [List.pairwise_iff_getElem]
      intro i j hi hj hij
      rwa [hids.idxOf_getElem, hids.idxOf_getElem]
    apply hpairwise.forall_sublist
    have hpair : [s.label, c.label].Sublist s.labels := by
      obtain ⟨a, cs⟩ := s
      rw [labels_node]
      refine .cons_cons a (List.singleton_sublist.mpr ?_)
      exact List.mem_flatMap.mpr ⟨c, hc, c.label_mem_labels⟩
    exact (hpair.trans (labels_sublist hs)).map id

end Graph

/-- The subtrees of a numbered tree. -/
theorem Numbered.of_mem_subtrees {id : α → Nat} {first : α → Prop} {lo hi : Nat} {s t : RoseTree α}
    (h : Numbered id first lo hi t) (hs : s ∈ t.subtrees) : ∃ lo hi, Numbered id first lo hi s := by
  induction t using induct generalizing lo hi with
  | h a cs ih =>
    rcases mem_subtrees_node.mp hs with rfl | ⟨c, hc, hs⟩
    · exact ⟨lo, hi, h⟩
    · obtain ⟨_, _, hcs⟩ := h.children
      obtain ⟨_, _, hnum⟩ := hcs.of_mem hc
      exact ih c hc hnum hs

/-- **The graph of a numbered tree is laid out.** -/
theorem Numbered.laid_toGraph {id : α → Nat} {first : α → Prop} {lo hi : Nat} {t : RoseTree α}
    (h : Numbered id first lo hi t) (data : α → β) (edge : α → ε) :
    (t.toGraph id data edge h.nodup).Laid := by
  intro p a b x y hpa hpb hlt hax hby
  obtain ⟨s, hs, c, hc, rfl, rfl⟩ := edge_toGraph.mp hpa
  obtain ⟨s', hs', d, hd, heq, rfl⟩ := edge_toGraph.mp hpb
  obtain rfl := eq_of_mem_subtrees h.nodup hs' hs heq
  rw [below_toGraph (mem_subtrees_trans (child_mem_subtrees hc) hs)] at hax
  rw [below_toGraph (mem_subtrees_trans (child_mem_subtrees hd) hs)] at hby
  obtain ⟨x, hx, rfl⟩ := List.mem_map.mp hax
  obtain ⟨y, hy, rfl⟩ := List.mem_map.mp hby
  obtain ⟨_, _, hnum⟩ := h.of_mem_subtrees hs
  obtain ⟨a, cs⟩ := s'
  obtain ⟨_, _, hcs⟩ := hnum.children
  obtain ⟨i, hi, rfl⟩ := List.getElem_of_mem (show c ∈ cs from hc)
  obtain ⟨j, hj, rfl⟩ := List.getElem_of_mem (show d ∈ cs from hd)
  have hpairwise := List.pairwise_iff_getElem.mp hcs.pairwise
  rcases Nat.lt_trichotomy i j with hij | rfl | hji
  · exact hpairwise i j hi hj hij x hx y hy
  · exact absurd hlt (Nat.lt_irrefl _)
  · have := hpairwise j i hj hi hji _ (label_mem_labels _) _ (label_mem_labels _)
    omega

end RoseTree

end Assure.Library
