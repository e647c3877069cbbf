import Assure.Library.Digraph
import Assure.Library.TreeGraph

/-!
# Graphs unfolded to trees

A tree unfolds a graph if the children of each of its nodes are the neighbours of the node, in order. There
is such a tree over a node exactly if no cycle can be reached from it (`exists_unfolds_iff`), it is the only
one (`Unfolds.unique`), and its labels are the nodes that can be reached (`Unfolds.mem_labels`).

`preorderLinks` are the edges of a tree whose nodes are numbered as a walk meets them, node before children:
the edge to a child comes after those of the subtree there.
-/

namespace Assure.Library

namespace RoseTree

variable {α ε : Type*} {adj : α → List α}

/-- **A tree that unfolds a graph.** -/
def Unfolds (adj : α → List α) (t : RoseTree α) : Prop :=
  ∀ s ∈ t.subtrees, s.children.map label = adj s.label

/-- A tree unfolds a graph from its root if the trees below unfold it from the successors, in order.
-/
theorem unfolds_node {a : α} {cs : List (RoseTree α)} :
    Unfolds adj (node a cs) ↔ cs.map label = adj a ∧ ∀ c ∈ cs, Unfolds adj c := by
  constructor
  · intro h
    refine ⟨h _ (self_mem_subtrees _), fun c hc s hs => ?_⟩
    exact h s (mem_subtrees_node.mpr (.inr ⟨c, hc, hs⟩))
  · intro h s hs
    rcases mem_subtrees_node.mp hs with rfl | ⟨c, hc, hs⟩
    · exact h.1
    · exact h.2 c hc s hs

namespace Unfolds

variable {t u : RoseTree α}

/-- So does each of its subtrees. -/
theorem of_mem (h : Unfolds adj t) (hu : u ∈ t.subtrees) : Unfolds adj u := fun s hs =>
  h s (mem_subtrees_trans hs hu)

/-- **One tree over a node.** -/
theorem unique (h : Unfolds adj t) (hu : Unfolds adj u) (hlabel : t.label = u.label) : t = u := by
  induction t using induct generalizing u with
  | h a cs ih =>
    obtain ⟨b, ds⟩ := u
    obtain rfl : a = b := hlabel
    obtain ⟨hcs, hc⟩ := unfolds_node.mp h
    obtain ⟨hds, hd⟩ := unfolds_node.mp hu
    have hlabels : cs.map label = ds.map label := hcs.trans hds.symm
    have hlength : cs.length = ds.length := by simpa using congrArg List.length hlabels
    rw [node.injEq]
    refine ⟨rfl, List.ext_getElem hlength fun i hi hj => ?_⟩
    apply ih _ (List.getElem_mem hi) (hc _ (List.getElem_mem hi)) (hd _ (List.getElem_mem hj))
    have hget : (cs.map label)[i]? = (ds.map label)[i]? := congrArg (·[i]?) hlabels
    simpa [hi, hj] using hget

/-- A label is that of the root of some subtree. -/
theorem mem_labels_iff {a : α} (t : RoseTree α) : a ∈ t.labels ↔ ∃ s ∈ t.subtrees, s.label = a := by
  rw [← t.map_label_subtrees, List.mem_map]

/-- **The labels are what can be reached.** -/
theorem mem_labels (h : Unfolds adj t) {x : α} : x ∈ t.labels ↔ Reach adj t.label x := by
  constructor
  · intro hx
    obtain ⟨s, hs, rfl⟩ := (mem_labels_iff t).mp hx
    clear hx
    induction t using induct with
    | h a cs ih =>
      rcases mem_subtrees_node.mp hs with rfl | ⟨c, hc, hs⟩
      · exact .refl _
      · obtain ⟨hcs, hunfolds⟩ := unfolds_node.mp h
        have hedge : c.label ∈ adj a := hcs ▸ List.mem_map_of_mem hc
        exact (Reach.edge hedge).trans (ih c hc (hunfolds c hc) hs)
  · intro hx
    refine (mem_labels_iff t).mpr ?_
    induction hx with
    | refl => exact ⟨t, t.self_mem_subtrees, rfl⟩
    | tail _ hstep ih =>
      obtain ⟨s, hs, rfl⟩ := ih
      rw [← h s hs] at hstep
      obtain ⟨c, hc, rfl⟩ := List.mem_map.mp hstep
      exact ⟨c, mem_subtrees_trans (child_mem_subtrees hc) hs, rfl⟩

/-- **No cycle can be reached.** -/
theorem acyclic (h : Unfolds adj t) {v w : α} (hv : Reach adj t.label v) (hw : w ∈ adj v) :
    ¬ Reach adj w v := by
  intro hback
  obtain ⟨s, hs, rfl⟩ := (mem_labels_iff t).mp (h.mem_labels.mpr hv)
  rw [← h s hs] at hw
  obtain ⟨c, hc, rfl⟩ := List.mem_map.mp hw
  have hcs := child_mem_subtrees hc
  obtain ⟨s', hs', hlabel⟩ := (mem_labels_iff c).mp ((h.of_mem (mem_subtrees_trans hcs hs)).mem_labels.mpr hback)
  obtain rfl := (h.of_mem (mem_subtrees_trans hs' (mem_subtrees_trans hcs hs))).unique (h.of_mem hs) hlabel
  -- a tree is not inside one of its children
  have hlt : s'.labels.length ≤ c.labels.length := (labels_sublist hs').length_le
  have hgt : c.labels.length < s'.labels.length := by
    obtain ⟨a, cs⟩ := s'
    have hflat : c.labels.Sublist (cs.flatMap labels) :=
      List.sublist_flatten_of_mem (List.mem_map_of_mem hc)
    rw [labels_node, List.length_cons]
    exact Nat.lt_succ_of_le hflat.length_le
  omega

/-- The root is not among the labels of the children. -/
theorem root_notMem {a : α} {cs : List (RoseTree α)} (h : Unfolds adj (node a cs)) {c : RoseTree α}
    (hc : c ∈ cs) : a ∉ c.labels := by
  intro ha
  obtain ⟨hcs, hunfolds⟩ := unfolds_node.mp h
  have hedge : c.label ∈ adj a := hcs ▸ List.mem_map_of_mem hc
  exact h.acyclic (v := a) (.refl _) hedge ((hunfolds c hc).mem_labels.mp ha)

end Unfolds

/-- **A graph without a cycle in reach unfolds.** -/
theorem exists_unfolds (nodes : Finset α) {root : α} (hnodes : ∀ v, Reach adj root v → v ∈ nodes)
    (hacyclic : ∀ v, Reach adj root v → ∀ w ∈ adj v, ¬ Reach adj w v) :
    ∃ t : RoseTree α, t.label = root ∧ Unfolds adj t := by
  classical
  -- by induction on the nodes that can be reached
  induction hcard : (nodes.filter fun v => Reach adj root v).card using Nat.strong_induction_on
    generalizing root with
  | _ n ih =>
    have hchild : ∀ c ∈ adj root, ∃ t : RoseTree α, t.label = c ∧ Unfolds adj t := by
      intro c hc
      have hreach : ∀ {v}, Reach adj c v → Reach adj root v := fun hv => (Reach.edge hc).trans hv
      refine ih _ ?_ (fun v hv => hnodes v (hreach hv)) (fun v hv => hacyclic v (hreach hv)) rfl
      rw [← hcard]
      apply Finset.card_lt_card
      refine ⟨fun v hv => ?_, fun hsub => ?_⟩
      · obtain ⟨hvn, hv⟩ := Finset.mem_filter.mp hv
        exact Finset.mem_filter.mpr ⟨hvn, hreach hv⟩
      · have hroot := hsub (Finset.mem_filter.mpr ⟨hnodes root (.refl _), .refl root⟩)
        exact hacyclic root (.refl _) c hc (Finset.mem_filter.mp hroot).2
    have hall : ∀ l : List α, (∀ c ∈ l, ∃ t : RoseTree α, t.label = c ∧ Unfolds adj t) →
        ∃ cs : List (RoseTree α), cs.map label = l ∧ ∀ c ∈ cs, Unfolds adj c := by
      intro l
      induction l with
      | nil => exact fun _ => ⟨[], rfl, by simp⟩
      | cons a l ihl =>
        intro h
        obtain ⟨t, ht, hunfolds⟩ := h a List.mem_cons_self
        obtain ⟨cs, hcs, hc⟩ := ihl fun c hc => h c (List.mem_cons_of_mem _ hc)
        refine ⟨t :: cs, by rw [List.map_cons, ht, hcs], ?_⟩
        intro c hmem
        rcases List.mem_cons.mp hmem with rfl | hmem
        · exact hunfolds
        · exact hc c hmem
    obtain ⟨cs, hcs, hc⟩ := hall (adj root) hchild
    exact ⟨node root cs, rfl, unfolds_node.mpr ⟨hcs, hc⟩⟩

/-- From a vertex that reaches finitely many there is an unfolded tree exactly if no cycle is
reached. -/
theorem exists_unfolds_iff (nodes : Finset α) {root : α} (hnodes : ∀ v, Reach adj root v → v ∈ nodes) :
    (∃ t : RoseTree α, t.label = root ∧ Unfolds adj t) ↔
      ∀ v, Reach adj root v → ∀ w ∈ adj v, ¬ Reach adj w v := by
  constructor
  · intro h v hv w hw
    obtain ⟨t, rfl, ht⟩ := h
    exact ht.acyclic hv hw
  · exact exists_unfolds nodes hnodes

/-- **In a forest nothing is met twice.** -/
theorem Unfolds.nodup {ν β δ : Type*} [DecidableEq ν] {G : OrderedGraph ν β δ} (hG : G.IsForest)
    {t : RoseTree ν} (h : Unfolds G.successors t) : t.labels.Nodup := by
  induction t using induct with
  | h a cs ih =>
    obtain ⟨hcs, hunfolds⟩ := unfolds_node.mp h
    have hedge : ∀ c ∈ cs, G.Edge a c.label := fun c hc =>
      OrderedGraph.mem_successors.mp (hcs ▸ List.mem_map_of_mem hc)
    rw [labels_node, List.nodup_cons, List.nodup_flatMap]
    refine ⟨fun ha => ?_, fun c hc => ih c hc (hunfolds c hc), ?_⟩
    · obtain ⟨c, hc, ha⟩ := List.mem_flatMap.mp ha
      exact h.root_notMem hc ha
    · have hdistinct : cs.Pairwise fun c d => c.label ≠ d.label := by
        have hnodup := OrderedGraph.successors_nodup G a
        rw [← hcs] at hnodup
        exact List.pairwise_map.mp hnodup
      refine hdistinct.imp_of_mem fun {c d} hc hd hne => ?_
      intro x hxc hxd
      exact hG.disjoint (hedge c hc) (hedge d hd) hne ((hunfolds c hc).mem_labels.mp hxc)
        ((hunfolds d hd).mem_labels.mp hxd)

/-! ## The order in which a walk meets the nodes -/

/-- **A depth-first walk**, after `met`: a node, then what is reached from its neighbours, each once. -/
def preorder [DecidableEq α] (adj : α → List α) : Nat → List α → α → List α
  | 0, met, _ => met
  | fuel + 1, met, v => if v ∈ met then met else (adj v).foldl (preorder adj fuel) (met ++ [v])

mutual

/-- **Over a tree it meets the labels in order.** -/
theorem preorder_eq [DecidableEq α] : ∀ (t : RoseTree α) (fuel : Nat) (met : List α), Unfolds adj t →
    t.labels.length ≤ fuel → (met ++ t.labels).Nodup → preorder adj fuel met t.label = met ++ t.labels
  | node a cs, 0, _, _, hfuel, _ => by
    rw [labels_node, List.length_cons] at hfuel
    omega
  | node a cs, fuel + 1, met, h, hfuel, hnodup => by
    obtain ⟨hcs, hunfolds⟩ := unfolds_node.mp h
    rw [labels_node] at hfuel hnodup ⊢
    have ha : a ∉ met := fun ha => (List.nodup_append.mp hnodup).2.2 a ha a List.mem_cons_self rfl
    have hsplit : met ++ a :: cs.flatMap labels = (met ++ [a]) ++ cs.flatMap labels := by simp
    rw [hsplit] at hnodup ⊢
    rw [List.length_cons] at hfuel
    show preorder adj (fuel + 1) met a = _
    rw [preorder, if_neg ha, ← hcs]
    exact foldl_preorder_eq cs fuel (met ++ [a]) hunfolds (by omega) hnodup

/-- The search with a set of what was met lists an unfolded forest in preorder, if it meets no
vertex twice. -/
theorem foldl_preorder_eq [DecidableEq α] : ∀ (cs : List (RoseTree α)) (fuel : Nat) (met : List α),
    (∀ c ∈ cs, Unfolds adj c) → (cs.flatMap labels).length ≤ fuel → (met ++ cs.flatMap labels).Nodup →
      (cs.map label).foldl (preorder adj fuel) met = met ++ cs.flatMap labels
  | [], _, met, _, _, _ => (List.append_nil met).symm
  | c :: cs, fuel, met, h, hfuel, hnodup => by
    rw [List.flatMap_cons] at hfuel hnodup ⊢
    rw [← List.append_assoc] at hnodup ⊢
    rw [List.length_append] at hfuel
    have hfirst : preorder adj fuel met c.label = met ++ c.labels :=
      preorder_eq c fuel met (h c List.mem_cons_self) (by omega)
        (hnodup.sublist (List.sublist_append_left _ _))
    rw [List.map_cons, List.foldl_cons, hfirst]
    exact foldl_preorder_eq cs fuel _ (fun d hd => h d (List.mem_cons_of_mem _ hd)) (by omega) hnodup

end

/-! ## Numbered as met -/

section Preorder

variable (edge : α → α → ε)

mutual

/-- **The edges of a tree numbered from `k` on.** -/
def preorderLinks (k : Nat) : RoseTree α → List ((Nat × Nat) × ε)
  | node a cs => preorderLinksAll a k (k + 1) cs

/-- The edges from a node `k` to its children, numbered from `j` on, and under these. -/
def preorderLinksAll (a : α) (k j : Nat) : List (RoseTree α) → List ((Nat × Nat) × ε)
  | [] => []
  | c :: cs =>
    preorderLinks j c ++ [((k, j), edge a c.label)] ++ preorderLinksAll a k (j + c.labels.length) cs

end

variable {edge}

mutual

/-- The edges go up, inside the numbers of the tree. -/
theorem mem_preorderLinks {k : Nat} {e : (Nat × Nat) × ε} : ∀ {t : RoseTree α},
    e ∈ preorderLinks edge k t → k ≤ e.1.1 ∧ e.1.1 < e.1.2 ∧ e.1.2 < k + t.labels.length
  | node a cs, h => by
    rw [preorderLinks] at h
    have hall := mem_preorderLinksAll (Nat.lt_succ_self k) h
    rw [labels_node, List.length_cons]
    omega

/-- The links below a vertex start at it or at later numbers, and lead to later numbers still. -/
theorem mem_preorderLinksAll {a : α} {k j : Nat} {e : (Nat × Nat) × ε} (hkj : k < j) :
    ∀ {cs : List (RoseTree α)}, e ∈ preorderLinksAll edge a k j cs → (e.1.1 = k ∨ j ≤ e.1.1) ∧
      e.1.1 < e.1.2 ∧ j ≤ e.1.2 ∧ e.1.2 < j + (cs.flatMap labels).length
  | [], h => by
    rw [preorderLinksAll] at h
    cases h
  | c :: cs, h => by
    rw [preorderLinksAll, List.mem_append, List.mem_append, List.mem_singleton] at h
    rw [List.flatMap_cons, List.length_append]
    rcases h with (h | rfl) | h
    · have := mem_preorderLinks h
      omega
    · have hpos : 0 < c.labels.length := List.length_pos_of_mem c.label_mem_labels
      simp only [true_or, true_and]
      omega
    · have := mem_preorderLinksAll (by omega) h
      omega

end

mutual

/-- What is at an edge, from the labels at its ends. -/
theorem data_preorderLinks {k : Nat} {e : (Nat × Nat) × ε} : ∀ {t : RoseTree α},
    e ∈ preorderLinks edge k t → ∃ a b, t.labels[e.1.1 - k]? = some a ∧ t.labels[e.1.2 - k]? = some b ∧
      e.2 = edge a b
  | node a cs, h => by
    rw [preorderLinks] at h
    have hbounds := mem_preorderLinksAll (Nat.lt_succ_self k) h
    obtain ⟨a', b, ha, hb, heq⟩ := data_preorderLinksAll (Nat.lt_succ_self k) h
    have htarget : e.1.2 - k = e.1.2 - (k + 1) + 1 := by omega
    refine ⟨a', b, ?_, ?_, heq⟩
    · rw [labels_node]
      rcases ha with ⟨hsource, rfl⟩ | ⟨hsource, ha⟩
      · rw [hsource, Nat.sub_self]
        rfl
      · have hsub : e.1.1 - k = e.1.1 - (k + 1) + 1 := by omega
        rwa [hsub, List.getElem?_cons_succ]
    · rwa [labels_node, htarget, List.getElem?_cons_succ]

/-- The number of a link's end is the place of its vertex in the preorder, and the link has the data
of the edge. -/
theorem data_preorderLinksAll {a : α} {k j : Nat} {e : (Nat × Nat) × ε} (hkj : k < j) :
    ∀ {cs : List (RoseTree α)}, e ∈ preorderLinksAll edge a k j cs → ∃ a' b,
      (e.1.1 = k ∧ a' = a ∨ j ≤ e.1.1 ∧ (cs.flatMap labels)[e.1.1 - j]? = some a') ∧
        (cs.flatMap labels)[e.1.2 - j]? = some b ∧ e.2 = edge a' b
  | [], h => by
    rw [preorderLinksAll] at h
    cases h
  | c :: cs, h => by
    rw [preorderLinksAll, List.mem_append, List.mem_append, List.mem_singleton] at h
    rw [List.flatMap_cons]
    rcases h with (h | rfl) | h
    · have hbounds := mem_preorderLinks h
      obtain ⟨a', b, ha, hb, heq⟩ := data_preorderLinks h
      refine ⟨a', b, .inr ⟨hbounds.1, ?_⟩, ?_, heq⟩
      · rwa [List.getElem?_append_left (by omega)]
      · rwa [List.getElem?_append_left (by omega)]
    · refine ⟨a, c.label, .inl ⟨rfl, rfl⟩, ?_, rfl⟩
      obtain ⟨b, ds⟩ := c
      simp [labels_node, label]
    · have hbounds := mem_preorderLinksAll (by omega) h
      obtain ⟨a', b, ha, hb, heq⟩ := data_preorderLinksAll (by omega) h
      have hsource : ∀ {i}, j + c.labels.length ≤ i →
          i - j - c.labels.length = i - (j + c.labels.length) := by omega
      refine ⟨a', b, ?_, ?_, heq⟩
      · refine ha.imp_right fun ha => ⟨by omega, ?_⟩
        rw [List.getElem?_append_right (by omega), hsource ha.1]
        exact ha.2
      · rw [List.getElem?_append_right (by omega), hsource hbounds.2.2.1]
        exact hb

end

/-- Where the edges from a number lead. -/
def targetsOf (i : Nat) (links : List ((Nat × Nat) × ε)) : List Nat :=
  (links.filter fun e => e.1.1 = i).map fun e => e.1.2

/-- The targets of two rows of links follow each other. -/
theorem targetsOf_append (i : Nat) (links links' : List ((Nat × Nat) × ε)) :
    targetsOf i (links ++ links') = targetsOf i links ++ targetsOf i links' := by
  rw [targetsOf, List.filter_append, List.map_append]
  rfl

/-- Where no link starts there is no target. -/
theorem targetsOf_eq_nil {i : Nat} {links : List ((Nat × Nat) × ε)} (h : ∀ e ∈ links, e.1.1 ≠ i) :
    targetsOf i links = [] := by
  rw [targetsOf, List.filter_eq_nil_iff.mpr fun e he => by simpa using h e he, List.map_nil]

/-- A target is the end of some link. -/
theorem mem_targetsOf {i j : Nat} {links : List ((Nat × Nat) × ε)} (h : j ∈ targetsOf i links) :
    ∃ e ∈ links, e.1.1 = i ∧ e.1.2 = j := by
  obtain ⟨e, he, rfl⟩ := List.mem_map.mp h
  exact ⟨e, List.mem_of_mem_filter he, by simpa using List.of_mem_filter he, rfl⟩

mutual

/-- No two links of a tree lead to the same number. -/
theorem preorderLinks_targets_nodup (k : Nat) : ∀ t : RoseTree α,
    ((preorderLinks edge k t).map fun e => e.1.2).Nodup
  | node a cs => by
    rw [preorderLinks]
    exact preorderLinksAll_targets_nodup a (Nat.lt_succ_self k) cs

/-- Nor do those of a list of trees. -/
theorem preorderLinksAll_targets_nodup (a : α) {k j : Nat} (hkj : k < j) : ∀ cs : List (RoseTree α),
    ((preorderLinksAll edge a k j cs).map fun e => e.1.2).Nodup
  | [] => by
    rw [preorderLinksAll]
    exact List.nodup_nil
  | c :: cs => by
    have hpos : 0 < c.labels.length := List.length_pos_of_mem c.label_mem_labels
    rw [preorderLinksAll, List.map_append, List.map_append]
    apply List.Nodup.append
    · apply List.Nodup.append (preorderLinks_targets_nodup j c) (List.nodup_singleton _)
      intro i hi hj
      obtain ⟨e, he, rfl⟩ := List.mem_map.mp hi
      have hbounds := mem_preorderLinks he
      have heq : e.1.2 = j := by simpa using hj
      omega
    · exact preorderLinksAll_targets_nodup a (by omega) cs
    · intro i hi hrest
      obtain ⟨e, he, rfl⟩ := List.mem_map.mp hrest
      have hbounds := mem_preorderLinksAll (by omega) he
      rcases List.mem_append.mp hi with hi | hi
      · obtain ⟨e', he', heq⟩ := List.mem_map.mp hi
        have hbounds' := mem_preorderLinks he'
        omega
      · have heq : e.1.2 = j := by simpa using hi
        omega

end

/-- The numbers of the trees in a row, each from where the last one ends. -/
theorem targetsOf_root (a : α) {k j : Nat} (hkj : k < j) : ∀ cs : List (RoseTree α),
    (targetsOf k (preorderLinksAll edge a k j cs)).Pairwise (· < ·) ∧
      (targetsOf k (preorderLinksAll edge a k j cs)).map (fun i => (cs.flatMap labels)[i - j]?) =
        cs.map fun c => some c.label
  | [] => by
    rw [preorderLinksAll]
    exact ⟨.nil, rfl⟩
  | c :: cs => by
    have hpos : 0 < c.labels.length := List.length_pos_of_mem c.label_mem_labels
    obtain ⟨hpairwise, hlabels⟩ := targetsOf_root a (k := k) (j := j + c.labels.length) (by omega) cs
    have hinside : targetsOf k (preorderLinks edge j c) = [] := targetsOf_eq_nil fun e he => by
      have := mem_preorderLinks he
      omega
    have hone : targetsOf k [((k, j), edge a c.label)] = [j] := by simp [targetsOf]
    have hlate : ∀ i ∈ targetsOf k (preorderLinksAll edge a k (j + c.labels.length) cs),
        j + c.labels.length ≤ i := by
      intro i hi
      obtain ⟨e, he, -, rfl⟩ := mem_targetsOf hi
      exact (mem_preorderLinksAll (by omega) he).2.2.1
    rw [preorderLinksAll, targetsOf_append, targetsOf_append, hinside, hone]
    refine ⟨?_, ?_⟩
    · refine List.pairwise_append.mpr ⟨List.pairwise_singleton _ _, hpairwise, ?_⟩
      intro x hx y hy
      have := hlate y hy
      have hxj : x = j := by simpa using hx
      omega
    · rw [List.nil_append, List.singleton_append, List.map_cons, List.map_cons, ← hlabels]
      congr 1
      · obtain ⟨b, ds⟩ := c
        simp [labels_node, label]
      · apply List.map_congr_left
        intro i hi
        have hle := hlate i hi
        rw [List.flatMap_cons, List.getElem?_append_right (by omega)]
        congr 1
        omega

mutual

/-- **The children of a number are numbered in the order of the neighbours it stands for.** -/
theorem targetsOf_preorderLinks (k : Nat) {i : Nat} {a : α} : ∀ {t : RoseTree α}, Unfolds adj t →
    t.labels[i]? = some a → (targetsOf (k + i) (preorderLinks edge k t)).Pairwise (· < ·) ∧
      (targetsOf (k + i) (preorderLinks edge k t)).map (fun j => t.labels[j - k]?) = (adj a).map some
  | node b cs, h, hi => by
    obtain ⟨hcs, hunfolds⟩ := unfolds_node.mp h
    have hshift : ∀ i, (targetsOf i (preorderLinksAll edge b k (k + 1) cs)).map
        (fun j => (b :: cs.flatMap labels)[j - k]?) =
          (targetsOf i (preorderLinksAll edge b k (k + 1) cs)).map
            fun j => (cs.flatMap labels)[j - (k + 1)]? := by
      intro i
      apply List.map_congr_left
      intro j hj
      obtain ⟨e, he, -, rfl⟩ := mem_targetsOf hj
      have hle := (mem_preorderLinksAll (Nat.lt_succ_self k) he).2.2.1
      have hsub : e.1.2 - k = e.1.2 - (k + 1) + 1 := by omega
      rw [hsub, List.getElem?_cons_succ]
    rw [labels_node] at hi ⊢
    rw [preorderLinks, hshift]
    cases i with
    | zero =>
      obtain rfl : b = a := by simpa using hi
      have hroot := @targetsOf_root α ε edge b k (k + 1) (Nat.lt_succ_self k) cs
      refine ⟨hroot.1, hroot.2.trans ?_⟩
      rw [← hcs, List.map_map]
      rfl
    | succ i =>
      have hadd : k + (i + 1) = k + 1 + i := by omega
      rw [List.getElem?_cons_succ] at hi
      rw [hadd]
      exact targetsOf_preorderLinksAll b (Nat.lt_succ_self k) hunfolds hi

/-- From the number of a vertex the links lead, in growing order, to the numbers of its successors.
-/
theorem targetsOf_preorderLinksAll (b : α) {k j : Nat} (hkj : k < j) {i : Nat} {a : α} :
    ∀ {cs : List (RoseTree α)}, (∀ c ∈ cs, Unfolds adj c) → (cs.flatMap labels)[i]? = some a →
      (targetsOf (j + i) (preorderLinksAll edge b k j cs)).Pairwise (· < ·) ∧
        (targetsOf (j + i) (preorderLinksAll edge b k j cs)).map
          (fun x => (cs.flatMap labels)[x - j]?) = (adj a).map some
  | [], _, hi => by simp at hi
  | c :: cs, h, hi => by
    have hone : targetsOf (j + i) [((k, j), edge b c.label)] = [] := targetsOf_eq_nil fun e he => by
      rw [List.mem_singleton.mp he]
      show k ≠ j + i
      omega
    rw [List.flatMap_cons] at hi ⊢
    rw [preorderLinksAll, targetsOf_append, targetsOf_append, hone, List.append_nil]
    by_cases hic : i < c.labels.length
    · -- inside the first tree
      have hrest : targetsOf (j + i) (preorderLinksAll edge b k (j + c.labels.length) cs) = [] :=
        targetsOf_eq_nil fun e he => by
          have := mem_preorderLinksAll (by omega) he
          omega
      rw [List.getElem?_append_left hic] at hi
      obtain ⟨hpairwise, hlabels⟩ := targetsOf_preorderLinks j (h c List.mem_cons_self) hi
      rw [hrest, List.append_nil]
      refine ⟨hpairwise, ?_⟩
      rw [← hlabels]
      apply List.map_congr_left
      intro x hx
      obtain ⟨e, he, -, rfl⟩ := mem_targetsOf hx
      have hbounds := mem_preorderLinks he
      exact List.getElem?_append_left (by omega)
    · have hfirst : targetsOf (j + i) (preorderLinks edge j c) = [] := targetsOf_eq_nil fun e he => by
        have := mem_preorderLinks he
        omega
      have hpos : 0 < c.labels.length := List.length_pos_of_mem c.label_mem_labels
      have hadd : j + i = j + c.labels.length + (i - c.labels.length) := by omega
      rw [List.getElem?_append_right (by omega)] at hi
      obtain ⟨hpairwise, hlabels⟩ := targetsOf_preorderLinksAll b (k := k) (j := j + c.labels.length)
        (by omega) (fun c hc => h c (List.mem_cons_of_mem _ hc)) hi
      rw [hfirst, List.nil_append, hadd]
      refine ⟨hpairwise, ?_⟩
      rw [← hlabels]
      apply List.map_congr_left
      intro x hx
      obtain ⟨e, he, -, rfl⟩ := mem_targetsOf hx
      have hle := (mem_preorderLinksAll (by omega) he).2.2.1
      rw [List.getElem?_append_right (by omega)]
      congr 1
      omega

end

end Preorder

end RoseTree

end Assure.Library
