import Assure.Library.GraphMatching
import Mathlib.Data.List.Range
import Mathlib.Data.List.Flatten

/-!
# Labelled trees

A tree is a label and its children in order. A place in it is the list of child numbers that lead
there. `fold` computes bottom up, from the label of a node and the values of its children in order.

The graph of a tree has its places as nodes and an edge from each to its children: it knows which
node is whose child, not which child comes first. So the trees with isomorphic graphs are those that are
`Alike`, equal up to the order of the children (`isomorphic_iff_alike`): one direction reads the pairing of
the children off an isomorphism, the other puts isomorphisms of the children together, each place being
matched with one at its depth (`levelled_matched`).

A fold may look at the order. Of trees that are the same up to the order of the children where it does not
count it gives one value (`SameUpTo.fold_eq`); of trees that are merely alike nothing is said.
-/

namespace Assure.Library

/-- **A tree.** -/
inductive RoseTree (α : Type*)
  | node (label : α) (children : List (RoseTree α))

namespace RoseTree

variable {α β : Type*}

/-- The label of the root. -/
def label : RoseTree α → α
  | node a _ => a

/-- The subtrees under the root. -/
def children : RoseTree α → List (RoseTree α)
  | node _ cs => cs

/-- **Induction on trees**: from all the children to the node. -/
@[elab_as_elim]
theorem induct {P : RoseTree α → Prop} (h : ∀ a cs, (∀ c ∈ cs, P c) → P (node a cs)) : ∀ t, P t
  | node a cs => h a cs fun c _ => induct h c

/-! ## Computing bottom up -/

mutual

/-- **The value of a tree** under an interpretation of its labels. -/
def fold (f : α → List β → β) : RoseTree α → β
  | node a cs => f a (foldAll f cs)

/-- The values of several trees. -/
def foldAll (f : α → List β → β) : List (RoseTree α) → List β
  | [] => []
  | c :: cs => fold f c :: foldAll f cs

end

/-- Folding a list of trees folds each of them. -/
theorem foldAll_eq (f : α → List β → β) : ∀ cs : List (RoseTree α), foldAll f cs = cs.map (fold f)
  | [] => by simp [foldAll]
  | c :: cs => by simp [foldAll, foldAll_eq f cs]

/-- A fold goes through the trees below first. -/
@[simp] theorem fold_node (f : α → List β → β) (a : α) (cs : List (RoseTree α)) :
    fold f (node a cs) = f a (cs.map (fold f)) := by
  rw [fold, foldAll_eq]

/-- The tree with other labels. -/
def map (f : α → β) : RoseTree α → RoseTree β := fold fun a => node (f a)

/-- Changing labels goes through the tree. -/
@[simp] theorem map_node (f : α → β) (a : α) (cs : List (RoseTree α)) :
    (node a cs).map f = node (f a) (cs.map (map f)) := fold_node _ a cs

/-- Changing labels twice is changing them once. -/
theorem map_map {γ : Type*} (f : α → β) (g : β → γ) (t : RoseTree α) :
    (t.map f).map g = t.map (g ∘ f) := by
  induction t using induct with
  | h a cs ih =>
    simp only [map_node, List.map_map, Function.comp_apply]
    exact congrArg _ (List.map_congr_left ih)

/-- The root gets the label it should. -/
@[simp] theorem label_map (f : α → β) : ∀ t : RoseTree α, (t.map f).label = f t.label
  | node a cs => by
    rw [map_node]
    rfl

/-- The tree with another label at the root. -/
def mapRoot (f : α → α) : RoseTree α → RoseTree α
  | node a cs => node (f a) cs

/-- Changing the root alone changes its label. -/
theorem label_mapRoot (f : α → α) : ∀ t : RoseTree α, (t.mapRoot f).label = f t.label
  | node _ _ => rfl

/-- What does not see a change of the root sees the tree as it was. -/
theorem map_mapRoot {f : α → α} {g : α → β} (h : ∀ a, g (f a) = g a) :
    ∀ t : RoseTree α, (t.mapRoot f).map g = t.map g
  | node a cs => by
    rw [mapRoot, map_node, map_node, h]

/-- The labels, a node's before those of its children. -/
def labels : RoseTree α → List α := fold fun a ls => a :: ls.flatten

/-- The labels of a tree, the root first. -/
@[simp] theorem labels_node (a : α) (cs : List (RoseTree α)) :
    (node a cs).labels = a :: cs.flatMap labels := by
  rw [labels, fold_node, List.flatMap_def]

/-- The root has one of the labels. -/
theorem label_mem_labels : ∀ t : RoseTree α, t.label ∈ t.labels
  | node a cs => by
    rw [labels_node]
    exact List.mem_cons_self

/-- The labels are changed one by one. -/
theorem labels_map (f : α → β) (t : RoseTree α) : (t.map f).labels = t.labels.map f := by
  induction t using induct with
  | h a cs ih =>
    rw [map_node, labels_node, labels_node, List.map_cons, List.flatMap_map, List.map_flatMap,
      List.flatMap_def, List.flatMap_def, List.map_congr_left ih]

/-- Two ways to map a tree agree where they agree on its labels. -/
theorem map_eq_map_iff {f g : α → β} (t : RoseTree α) :
    t.map f = t.map g ↔ ∀ a ∈ t.labels, f a = g a := by
  induction t using induct with
  | h a cs ih =>
    rw [map_node, map_node, node.injEq, labels_node, List.forall_mem_cons, List.map_inj_left]
    simp only [List.mem_flatMap, forall_exists_index, and_imp]
    refine and_congr_right fun _ => ⟨fun h b c hc hb => (ih c hc).mp (h c hc) b hb, ?_⟩
    exact fun h c hc => (ih c hc).mpr fun b hb => h b c hc hb

/-- Changing nothing gives the tree back. -/
theorem map_id (t : RoseTree α) : t.map id = t := by
  induction t using induct with
  | h a cs ih =>
    rw [map_node, List.map_congr_left ih, List.map_id']
    rfl

/-- Labels that are told apart tell trees apart. -/
theorem map_injective {f : α → β} (hf : Function.Injective f) : Function.Injective (map f) := by
  intro t
  induction t using induct with
  | h a cs ih =>
    rintro ⟨b, ds⟩ h
    rw [map_node, map_node, node.injEq] at h
    rw [hf h.1, node.injEq]
    refine ⟨rfl, ?_⟩
    have hall : ∀ (cs ds : List (RoseTree α)), (∀ c ∈ cs, ∀ d, c.map f = d.map f → c = d) →
        cs.map (map f) = ds.map (map f) → cs = ds := by
      intro cs
      induction cs with
      | nil =>
        intro ds _ heq
        exact (List.map_eq_nil_iff.mp heq.symm).symm
      | cons c cs ihcs =>
        rintro (_ | ⟨d, ds⟩) hc heq
        · cases heq
        · rw [List.map_cons, List.map_cons, List.cons.injEq] at heq
          rw [hc c List.mem_cons_self d heq.1,
            ihcs ds (fun c' hc' => hc c' (List.mem_cons_of_mem c hc')) heq.2]
    exact hall cs ds (fun c hc d heq => ih c hc heq) h.2

mutual

/-- The tree and all the trees under it. -/
def subtrees : RoseTree α → List (RoseTree α)
  | node a cs => node a cs :: subtreesAll cs

/-- The subtrees of several trees. -/
def subtreesAll : List (RoseTree α) → List (RoseTree α)
  | [] => []
  | c :: cs => subtrees c ++ subtreesAll cs

end

/-- The subtrees of a list are those of its trees. -/
theorem subtreesAll_eq : ∀ cs : List (RoseTree α), subtreesAll cs = cs.flatMap subtrees
  | [] => by simp [subtreesAll]
  | c :: cs => by simp [subtreesAll, subtreesAll_eq cs]

/-- A subtree is the tree itself or lies below the root. -/
theorem mem_subtrees_node {s : RoseTree α} {a : α} {cs : List (RoseTree α)} :
    s ∈ (node a cs).subtrees ↔ s = node a cs ∨ ∃ c ∈ cs, s ∈ c.subtrees := by
  rw [subtrees, subtreesAll_eq, List.mem_cons, List.mem_flatMap]

/-! ## Places -/

/-- The subtree at a place. -/
def at? (t : RoseTree α) : List Nat → Option (RoseTree α)
  | [] => some t
  | i :: p => t.children[i]?.bind fun c => c.at? p

/-- Going to a place by way of another one. -/
theorem at?_append (p q : List Nat) : ∀ t : RoseTree α, t.at? (p ++ q) = (t.at? p).bind (·.at? q) := by
  induction p with
  | nil =>
    intro t
    rfl
  | cons i p ih =>
    intro t
    simp only [List.cons_append, at?]
    cases t.children[i]? with
    | none => rfl
    | some c => exact ih c

/-- One step down from a place. -/
theorem at?_concat {t s : RoseTree α} {p : List Nat} (h : t.at? p = some s) (i : Nat) :
    t.at? (p ++ [i]) = s.children[i]? := by
  rw [at?_append, h, Option.bind_some]
  simp only [at?]
  cases s.children[i]? <;> rfl

mutual

/-- All places of a tree. -/
def places : RoseTree α → List (List Nat)
  | node _ cs => [] :: placesFrom 0 cs

/-- The places below, the children numbered from `i` on. -/
def placesFrom (i : Nat) : List (RoseTree α) → List (List Nat)
  | [] => []
  | c :: cs => (places c).map (i :: ·) ++ placesFrom (i + 1) cs

end

/-- The places below the root, by the position of the tree they lie in. -/
theorem mem_placesFrom {p : List Nat} : ∀ (cs : List (RoseTree α)) (i : Nat),
    p ∈ placesFrom i cs ↔ ∃ j c q, cs[j]? = some c ∧ q ∈ c.places ∧ p = (i + j) :: q
  | [], i => by simp [placesFrom]
  | c :: cs, i => by
    rw [placesFrom, List.mem_append, mem_placesFrom cs (i + 1), List.mem_map]
    constructor
    · intro h
      rcases h with ⟨q, hq, rfl⟩ | ⟨j, d, q, hd, hq, rfl⟩
      · exact ⟨0, c, q, rfl, hq, rfl⟩
      · exact ⟨j + 1, d, q, by simpa using hd, hq, congrArg (· :: q) (by omega)⟩
    · intro h
      obtain ⟨j, d, q, hd, hq, rfl⟩ := h
      cases j with
      | zero =>
        obtain rfl : c = d := by simpa using hd
        exact .inl ⟨q, hq, rfl⟩
      | succ j =>
        exact .inr ⟨j, d, q, by simpa using hd, hq, congrArg (· :: q) (by omega)⟩

/-- The places are where there is a subtree. -/
theorem mem_places {p : List Nat} : ∀ t : RoseTree α, p ∈ t.places ↔ (t.at? p).isSome = true := by
  induction p with
  | nil =>
    intro t
    cases t with
    | node a cs => simp [places, at?]
  | cons i p ih =>
    intro t
    cases t with
    | node a cs =>
      rw [places, List.mem_cons, mem_placesFrom]
      simp only [at?, children, Nat.zero_add, List.cons.injEq, reduceCtorEq, false_or]
      constructor
      · intro h
        obtain ⟨j, c, q, hc, hq, rfl, rfl⟩ := h
        rw [hc]
        exact (ih c).mp hq
      · intro h
        cases hc : cs[i]? with
        | none =>
          rw [hc] at h
          cases h
        | some c =>
          rw [hc] at h
          exact ⟨i, c, p, hc, (ih c).mpr h, rfl, rfl⟩

/-- No place is listed twice. -/
theorem nodup_places : ∀ t : RoseTree α, t.places.Nodup := by
  intro t
  induction t using induct with
  | h a cs ih =>
    have hfrom : ∀ (cs : List (RoseTree α)) (i : Nat), (∀ c ∈ cs, c.places.Nodup) →
        (placesFrom i cs).Nodup := by
      intro cs
      induction cs with
      | nil =>
        intro i _
        exact List.nodup_nil
      | cons c cs ihcs =>
        intro i h
        rw [placesFrom]
        apply List.Nodup.append
        · exact (h c List.mem_cons_self).map (List.cons_injective)
        · exact ihcs (i + 1) fun d hd => h d (List.mem_cons_of_mem c hd)
        · intro p hp hq
          obtain ⟨q, -, rfl⟩ := List.mem_map.mp hp
          obtain ⟨j, d, q', -, -, heq⟩ := (mem_placesFrom cs (i + 1)).mp hq
          have hhead := (List.cons.inj heq).1
          omega
    rw [places]
    apply List.nodup_cons.mpr
    refine ⟨fun h => ?_, hfrom cs 0 ih⟩
    obtain ⟨j, c, q, -, -, heq⟩ := (mem_placesFrom cs 0).mp h
    cases heq

/-! ## The graph of a tree -/

/-- The edges from a place to the children there. -/
def childEdges (t : RoseTree α) (p : List Nat) : List (List Nat × List Nat) :=
  ((t.at? p).map fun s => (List.range s.children.length).map fun i => (p, p ++ [i])).getD []

/-- The edges at a place lead to the places one step further. -/
theorem mem_childEdges {t : RoseTree α} {p : List Nat} {e : List Nat × List Nat} :
    e ∈ t.childEdges p ↔ ∃ s i, t.at? p = some s ∧ i < s.children.length ∧ e = (p, p ++ [i]) := by
  unfold childEdges
  cases t.at? p with
  | none => simp
  | some s => simp [eq_comm]

/-- **The graph of a tree**: its places, each with an edge to the children there. -/
def graph (t : RoseTree α) : LabelledGraph (List Nat) α where
  nodes := t.places
  nodup := t.nodup_places
  label p := ((t.at? p).getD t).label
  edges := t.places.flatMap t.childEdges
  edges_mem e he := by
    obtain ⟨p, hp, he⟩ := List.mem_flatMap.mp he
    obtain ⟨s, i, hs, hi, rfl⟩ := mem_childEdges.mp he
    refine ⟨hp, (mem_places t).mpr ?_⟩
    rw [at?_concat hs]
    simpa using hi

/-- The edges of the graph of a tree lead from each place to those one step further. -/
theorem mem_graph_edges {t : RoseTree α} {p q : List Nat} :
    (p, q) ∈ t.graph.edges ↔ ∃ s i, t.at? p = some s ∧ i < s.children.length ∧ q = p ++ [i] := by
  constructor
  · intro h
    obtain ⟨p', -, h⟩ := List.mem_flatMap.mp h
    obtain ⟨s, i, hs, hi, heq⟩ := mem_childEdges.mp h
    obtain ⟨rfl, rfl⟩ := Prod.mk.inj heq
    exact ⟨s, i, hs, hi, rfl⟩
  · intro h
    obtain ⟨s, i, hs, hi, rfl⟩ := h
    refine List.mem_flatMap.mpr ⟨p, (mem_places t).mpr ?_, mem_childEdges.mpr ⟨s, i, hs, hi, rfl⟩⟩
    rw [hs]
    rfl

/-- The graph has at each place the label of the subtree there. -/
theorem graph_label {t s : RoseTree α} {p : List Nat} (h : t.at? p = some s) :
    t.graph.label p = s.label := by
  show ((t.at? p).getD t).label = s.label
  rw [h]
  rfl

/-- A place that is not the root is a child of a place. -/
theorem exists_parent {t : RoseTree α} {p : List Nat} (hp : p ∈ t.places) (hne : p ≠ []) :
    ∃ parent ∈ t.places, (parent, p) ∈ t.graph.edges := by
  rcases List.eq_nil_or_concat p with rfl | ⟨parent, i, rfl⟩
  · exact absurd rfl hne
  · rw [List.concat_eq_append] at hp ⊢
    rw [mem_places, at?_append] at hp
    obtain ⟨s, hs⟩ := Option.isSome_iff_exists.mp (Option.isSome_of_isSome_bind hp)
    have hchild := at?_concat hs i
    rw [at?_append] at hchild
    rw [hchild] at hp
    refine ⟨parent, (mem_places t).mpr (by rw [hs]; rfl), mem_graph_edges.mpr ⟨s, i, hs, ?_, rfl⟩⟩
    simpa using hp

/-! ## Trees up to the order of the children -/

/-- **Alike trees**: their roots match, and their children can be paired off alike. -/
inductive Alike (nodeMatch : α → α → Bool) : RoseTree α → RoseTree α → Prop
  | node {a b : α} {cs ds : List (RoseTree α)} (pairs : List (RoseTree α × RoseTree α))
    (label : nodeMatch a b = true) (left : (pairs.map Prod.fst).Perm cs)
    (right : (pairs.map Prod.snd).Perm ds) (children : ∀ p ∈ pairs, Alike nodeMatch p.1 p.2) :
    Alike nodeMatch (.node a cs) (.node b ds)

section Isomorphic

variable {nodeMatch : α → α → Bool} {t u : RoseTree α} {pairs : List (List Nat × List Nat)}

/-- The nodes the children at a place are matched with, as subtrees. -/
theorem children_perm {project : List Nat × List Nat → List Nat} {p : List Nat} {s : RoseTree α}
    (hs : t.at? p = some s) (hperm : (pairs.map project).Perm t.places) :
    ((pairs.filter fun x => (p, project x) ∈ t.graph.edges).map fun x =>
      (t.at? (project x)).getD s).Perm s.children := by
  have hnodup : (pairs.map project).Nodup := hperm.nodup_iff.mpr t.nodup_places
  have hplaces : ((pairs.filter fun x => (p, project x) ∈ t.graph.edges).map project).Perm
      ((List.range s.children.length).map fun i => p ++ [i]) := by
    apply (List.perm_ext_iff_of_nodup _ _).mpr
    · intro q
      simp only [List.mem_map, List.mem_filter, decide_eq_true_eq, List.mem_range]
      constructor
      · intro h
        obtain ⟨x, ⟨-, hedge⟩, rfl⟩ := h
        obtain ⟨s', i, hs', hi, heq⟩ := mem_graph_edges.mp hedge
        rw [hs] at hs'
        cases hs'
        exact ⟨i, hi, heq.symm⟩
      · intro h
        obtain ⟨i, hi, rfl⟩ := h
        have hedge : (p, p ++ [i]) ∈ t.graph.edges := mem_graph_edges.mpr ⟨s, i, hs, hi, rfl⟩
        obtain ⟨x, hx, hxi⟩ := List.mem_map.mp
          (hperm.mem_iff.mpr (t.graph.edges_mem _ hedge).2)
        exact ⟨x, ⟨hx, hxi ▸ hedge⟩, hxi⟩
    · exact hnodup.sublist (List.filter_sublist.map project)
    · exact List.nodup_range.map fun i j heq => by simpa using heq
  have hmap := hplaces.map fun q => (t.at? q).getD s
  rw [List.map_map, List.map_map] at hmap
  refine hmap.trans (List.Perm.of_eq ?_)
  apply List.ext_getElem
  · simp
  · intro i h₁ h₂
    simp only [List.getElem_map, List.getElem_range, Function.comp_apply]
    rw [at?_concat hs, List.getElem?_eq_getElem h₂]
    rfl

/-- Matched places have alike subtrees, by induction on the subtree. -/
theorem alike_of_mem (h : LabelledGraph.IsIsomorphism t.graph u.graph nodeMatch pairs) (s : RoseTree α) :
    ∀ p q v, (p, q) ∈ pairs → t.at? p = some s → u.at? q = some v → Alike nodeMatch s v := by
  induction s using induct with
  | h a cs ih =>
    intro p q v hpq hs hv
    obtain ⟨b, ds⟩ := v
    have hlabel := h.label (p, q) hpq
    rw [graph_label hs, graph_label hv] at hlabel
    -- the children of `p` are matched with the children of `q`
    have hsame : (pairs.filter fun x => (q, x.2) ∈ u.graph.edges) =
        pairs.filter fun x => (p, x.1) ∈ t.graph.edges := by
      apply List.filter_congr
      intro x hx
      exact decide_eq_decide.mpr (h.edge (p, q) hpq x hx).symm
    have hleft := children_perm hs h.left
    have hright := children_perm hv h.right
    rw [hsame] at hright
    refine .node ((pairs.filter fun x => (p, x.1) ∈ t.graph.edges).map fun x =>
      ((t.at? x.1).getD (.node a cs), (u.at? x.2).getD (.node b ds))) hlabel ?_ ?_ ?_
    · rw [List.map_map]
      exact hleft
    · rw [List.map_map]
      exact hright
    · intro pair hpair
      obtain ⟨x, hx, rfl⟩ := List.mem_map.mp hpair
      obtain ⟨hxmem, hedge⟩ := List.mem_filter.mp hx
      obtain ⟨s', i, hs', hi, hxi⟩ := mem_graph_edges.mp (of_decide_eq_true hedge)
      rw [hs] at hs'
      cases hs'
      obtain ⟨v', hv'⟩ := Option.isSome_iff_exists.mp ((mem_places u).mp (h.mem_right hxmem))
      have hchild : t.at? x.1 = some cs[i] := by
        rw [hxi, at?_concat hs]
        exact List.getElem?_eq_getElem hi
      rw [hchild, hv']
      exact ih cs[i] (List.getElem_mem hi) x.1 x.2 v' hxmem hchild hv'

/-- **Trees with isomorphic graphs are alike**: the root has no parent, so it is matched with the
root. -/
theorem alike_of_isomorphic (h : LabelledGraph.Isomorphic t.graph u.graph nodeMatch) :
    Alike nodeMatch t u := by
  obtain ⟨pairs, h⟩ := h
  have hroot : [] ∈ t.places := (mem_places t).mpr rfl
  obtain ⟨q, hq⟩ := h.exists_snd hroot
  have hqroot : q = [] := by
    by_contra hne
    obtain ⟨parent, hparent, hedge⟩ := exists_parent (h.mem_right hq) hne
    obtain ⟨p, hp⟩ := h.exists_fst hparent
    obtain ⟨s, i, -, -, heq⟩ := mem_graph_edges.mp ((h.edge (p, parent) hp ([], q) hq).mpr hedge)
    simp at heq
  subst hqroot
  exact alike_of_mem h t [] [] u hq rfl rfl

/-- The places below, child by child. -/
theorem placesFrom_eq (cs : List (RoseTree α)) (i : Nat) :
    placesFrom i cs = (cs.zipIdx i).flatMap fun c => c.1.places.map (c.2 :: ·) := by
  induction cs generalizing i with
  | nil => rfl
  | cons c cs ih => rw [placesFrom, ih, List.zipIdx_cons, List.flatMap_cons]

/-- Between two places of a tree there is an edge if the second is one step below the first. -/
theorem edge_iff {t : RoseTree α} {p q : List Nat} (hp : p ∈ t.places) (hq : q ∈ t.places) :
    (p, q) ∈ t.graph.edges ↔ ∃ i, q = p ++ [i] := by
  constructor
  · intro h
    obtain ⟨s, i, -, -, heq⟩ := mem_graph_edges.mp h
    exact ⟨i, heq⟩
  · rintro ⟨i, rfl⟩
    obtain ⟨s, hs⟩ := Option.isSome_iff_exists.mp ((mem_places t).mp hp)
    have hchild := (mem_places t).mp hq
    rw [at?_concat hs] at hchild
    obtain ⟨c, hc⟩ := Option.isSome_iff_exists.mp hchild
    exact mem_graph_edges.mpr ⟨s, i, hs, (List.getElem?_eq_some_iff.mp hc).1, rfl⟩

/-- **Whoever permutes images permutes the originals.** -/
theorem exists_perm_map {γ δ : Type*} {f : γ → δ} {l : List δ} {m : List γ} (h : l.Perm (m.map f)) :
    ∃ l' : List γ, l'.Perm m ∧ l'.map f = l := by
  generalize hn : m.map f = n at h
  induction h generalizing m with
  | nil => exact ⟨[], by rw [List.map_eq_nil_iff.mp hn], rfl⟩
  | cons x _ ih =>
    obtain ⟨a, m', rfl, rfl, hm'⟩ := List.map_eq_cons_iff.mp hn
    obtain ⟨l', hl', rfl⟩ := ih hm'
    exact ⟨a :: l', hl'.cons a, rfl⟩
  | swap x y l =>
    obtain ⟨a, m', rfl, rfl, hm'⟩ := List.map_eq_cons_iff.mp hn
    obtain ⟨b, m'', rfl, rfl, rfl⟩ := List.map_eq_cons_iff.mp hm'
    exact ⟨b :: a :: m'', .swap a b m'', rfl⟩
  | trans _ _ ih₁ ih₂ =>
    obtain ⟨l₂, hl₂, rfl⟩ := ih₂ hn
    obtain ⟨l₁, hl₁, rfl⟩ := ih₁ rfl
    exact ⟨l₁, hl₁.trans hl₂, rfl⟩

/-- **Children that are paired off, with their numbers**: the first number is in the one list, the second in the
other. -/
theorem exists_numbered {pairs : List (RoseTree α × RoseTree α)} {cs ds : List (RoseTree α)}
    (left : (pairs.map Prod.fst).Perm cs) (right : (pairs.map Prod.snd).Perm ds) :
    ∃ rows : List ((Nat × Nat) × RoseTree α × RoseTree α), rows.map Prod.snd = pairs ∧
      (rows.map fun row => (row.2.1, row.1.1)).Perm cs.zipIdx ∧
      (rows.map fun row => (row.2.2, row.1.2)).Perm ds.zipIdx := by
  have hzip : ∀ (pairs : List (RoseTree α × RoseTree α)) (ls rs : List (RoseTree α × Nat)),
      ls.map Prod.fst = pairs.map Prod.fst → rs.map Prod.fst = pairs.map Prod.snd →
        ∃ rows : List ((Nat × Nat) × RoseTree α × RoseTree α), rows.map Prod.snd = pairs ∧
          (rows.map fun row => (row.2.1, row.1.1)) = ls ∧ (rows.map fun row => (row.2.2, row.1.2)) = rs := by
    intro pairs
    induction pairs with
    | nil =>
      intro ls rs hls hrs
      rw [List.map_eq_nil_iff.mp hls, List.map_eq_nil_iff.mp hrs]
      exact ⟨[], rfl, rfl, rfl⟩
    | cons pair pairs ih =>
      intro ls rs hls hrs
      obtain ⟨⟨c, i⟩, ls, rfl, rfl, hls'⟩ := List.map_eq_cons_iff.mp hls
      obtain ⟨⟨d, j⟩, rs, rfl, rfl, hrs'⟩ := List.map_eq_cons_iff.mp hrs
      obtain ⟨rows, rfl, rfl, rfl⟩ := ih ls rs hls' hrs'
      exact ⟨((i, j), pair) :: rows, rfl, rfl, rfl⟩
  obtain ⟨ls, hls, hlsmap⟩ := exists_perm_map (left.trans (.of_eq (List.zipIdx_map_fst 0 cs).symm))
  obtain ⟨rs, hrs, hrsmap⟩ := exists_perm_map (right.trans (.of_eq (List.zipIdx_map_fst 0 ds).symm))
  obtain ⟨rows, hrows, rfl, rfl⟩ := hzip pairs ls rs hlsmap hrsmap
  exact ⟨rows, hrows, hls, hrs⟩

/-- The places of a node, child by child in any order. -/
theorem places_perm {γ : Type*} (a : α) {cs : List (RoseTree α)} {rows : List γ} {child : γ → RoseTree α}
    {number : γ → Nat} (hperm : (rows.map fun row => (child row, number row)).Perm cs.zipIdx)
    {places : γ → List (List Nat)} (hplaces : ∀ row ∈ rows, (places row).Perm (child row).places) :
    ([] :: rows.flatMap fun row => (places row).map (number row :: ·)).Perm (node a cs).places := by
  rw [RoseTree.places, placesFrom_eq]
  refine List.Perm.cons [] ?_
  have hrows : (rows.flatMap fun row => (places row).map (number row :: ·)).Perm
      (rows.flatMap fun row => (child row).places.map (number row :: ·)) :=
    .flatMap_left rows fun row hrow => (hplaces row hrow).map _
  have hnumbered := hperm.flatMap_right fun c : RoseTree α × Nat => c.1.places.map (c.2 :: ·)
  rw [List.flatMap_map] at hnumbered
  exact hrows.trans hnumbered

/-- The numbers of the children tell them apart. -/
theorem numbers_nodup {γ : Type*} {cs : List (RoseTree α)} {rows : List γ} {child : γ → RoseTree α} {number : γ → Nat}
    (hperm : (rows.map fun row => (child row, number row)).Perm cs.zipIdx) : (rows.map number).Nodup := by
  have hrange := (hperm.map Prod.snd).nodup_iff.mpr (by rw [List.zipIdx_map_snd]; exact List.nodup_range')
  rwa [List.map_map] at hrange

/-- The subtree below a child. -/
theorem at?_child {γ : Type*} (a : α) {cs : List (RoseTree α)} {rows : List γ} {child : γ → RoseTree α} {number : γ → Nat}
    (hperm : (rows.map fun row => (child row, number row)).Perm cs.zipIdx) {row : γ} (hrow : row ∈ rows) (p : List Nat) :
    (node a cs).at? (number row :: p) = (child row).at? p := by
  have hchild : cs[number row]? = some (child row) :=
    List.mem_zipIdx_iff_getElem?.mp (hperm.mem_iff.mp (List.mem_map_of_mem hrow))
  rw [at?, children, hchild, Option.bind_some]

/-- **A matching of two graphs that leaves every place at its depth.** -/
structure Levelled (nodeMatch : α → α → Bool) (t u : RoseTree α) (pairs : List (List Nat × List Nat)) : Prop
    extends LabelledGraph.IsIsomorphism t.graph u.graph nodeMatch pairs where
  depth : ∀ p ∈ pairs, p.1.length = p.2.length

/-- The root with the root, and below it each child with the one it is paired with. -/
def matched (iso : RoseTree α × RoseTree α → List (List Nat × List Nat))
    (rows : List ((Nat × Nat) × RoseTree α × RoseTree α)) : List (List Nat × List Nat) :=
  ([], []) :: rows.flatMap fun row => (iso row.2).map fun p => (row.1.1 :: p.1, row.1.2 :: p.2)

/-- What is matched by a row of isomorphisms of subtrees: the roots, and what each of them matches
below. -/
theorem mem_matched {iso : RoseTree α × RoseTree α → List (List Nat × List Nat)}
    {rows : List ((Nat × Nat) × RoseTree α × RoseTree α)} {p : List Nat × List Nat} (hp : p ∈ matched iso rows) :
    p = ([], []) ∨ ∃ row ∈ rows, ∃ q ∈ iso row.2, p = (row.1.1 :: q.1, row.1.2 :: q.2) := by
  rcases List.mem_cons.mp hp with rfl | hp
  · exact .inl rfl
  · obtain ⟨row, hrow, hp⟩ := List.mem_flatMap.mp hp
    obtain ⟨q, hq, rfl⟩ := List.mem_map.mp hp
    exact .inr ⟨row, hrow, q, hq, rfl⟩

/-- **Matchings of the children are put together.** -/
theorem levelled_matched {a b : α} {cs ds : List (RoseTree α)} (label : nodeMatch a b = true)
    {rows : List ((Nat × Nat) × RoseTree α × RoseTree α)}
    (hleft : (rows.map fun row => (row.2.1, row.1.1)).Perm cs.zipIdx)
    (hright : (rows.map fun row => (row.2.2, row.1.2)).Perm ds.zipIdx)
    {iso : RoseTree α × RoseTree α → List (List Nat × List Nat)}
    (hiso : ∀ row ∈ rows, Levelled nodeMatch row.2.1 row.2.2 (iso row.2)) :
    Levelled nodeMatch (node a cs) (node b ds) (matched iso rows) := by
  have hl : ((matched iso rows).map Prod.fst).Perm (node a cs).places := by
    have hperm := places_perm a hleft fun row hrow => (hiso row hrow).left
    simp only [matched, List.map_cons, List.map_flatMap, List.map_map] at hperm ⊢
    exact hperm
  have hr : ((matched iso rows).map Prod.snd).Perm (node b ds).places := by
    have hperm := places_perm b hright fun row hrow => (hiso row hrow).right
    simp only [matched, List.map_cons, List.map_flatMap, List.map_map] at hperm ⊢
    exact hperm
  have hplaces : ∀ {row}, row ∈ rows → ∀ {q}, q ∈ iso row.2 → q.1 ∈ row.2.1.places ∧ q.2 ∈ row.2.2.places :=
    fun hrow _ hq => ⟨(hiso _ hrow).left.mem_iff.mp (List.mem_map_of_mem hq),
      (hiso _ hrow).right.mem_iff.mp (List.mem_map_of_mem hq)⟩
  refine ⟨⟨hl, hr, fun p hp => ?_, fun p hp q hq => ?_⟩, fun p hp => ?_⟩
  · rcases mem_matched hp with rfl | ⟨row, hrow, q, hq, rfl⟩
    · exact label
    · obtain ⟨s, hs⟩ := Option.isSome_iff_exists.mp ((mem_places _).mp (hplaces hrow hq).1)
      obtain ⟨v, hv⟩ := Option.isSome_iff_exists.mp ((mem_places _).mp (hplaces hrow hq).2)
      have hlabel := (hiso row hrow).label q hq
      rw [graph_label hs, graph_label hv] at hlabel
      have hs' := (at?_child a hleft hrow q.1).trans hs
      have hv' := (at?_child b hright hrow q.2).trans hv
      rwa [graph_label hs', graph_label hv']
  · rw [edge_iff (hl.mem_iff.mp (List.mem_map_of_mem hp)) (hl.mem_iff.mp (List.mem_map_of_mem hq)),
      edge_iff (hr.mem_iff.mp (List.mem_map_of_mem hp)) (hr.mem_iff.mp (List.mem_map_of_mem hq))]
    rcases mem_matched hp with rfl | ⟨row, hrow, x, hx, rfl⟩
    · rcases mem_matched hq with rfl | ⟨row', hrow', y, hy, rfl⟩
      · exact Iff.rfl
      · -- only the root of a child is one step below the root
        have hlength := (hiso row' hrow').depth y hy
        simp only [List.nil_append, List.cons.injEq, exists_and_right, exists_eq', true_and]
        rw [← List.length_eq_zero_iff, ← List.length_eq_zero_iff, hlength]
    · rcases mem_matched hq with rfl | ⟨row', hrow', y, hy, rfl⟩
      · simp
      · have hsame : row'.1.1 = row.1.1 ↔ row'.1.2 = row.1.2 := by
          constructor
          · intro heq
            rw [List.inj_on_of_nodup_map (numbers_nodup hleft) hrow' hrow heq]
          · intro heq
            rw [List.inj_on_of_nodup_map (numbers_nodup hright) hrow' hrow heq]
        simp only [List.cons_append, List.cons.injEq, exists_and_left]
        rw [hsame]
        refine and_congr_right fun heq => ?_
        obtain rfl := List.inj_on_of_nodup_map (numbers_nodup hright) hrow' hrow heq
        rw [← edge_iff (hplaces hrow hx).1 (hplaces hrow hy).1, ← edge_iff (hplaces hrow hx).2 (hplaces hrow hy).2]
        exact (hiso row' hrow).edge x hx y hy
  · rcases mem_matched hp with rfl | ⟨row, hrow, q, hq, rfl⟩
    · rfl
    · exact congrArg Nat.succ ((hiso row hrow).depth q hq)

/-- **The graphs of alike trees are isomorphic**, by induction on the pairing. -/
theorem isomorphic_of_alike (h : Alike nodeMatch t u) : LabelledGraph.Isomorphic t.graph u.graph nodeMatch := by
  have hlevelled : ∃ pairs, Levelled nodeMatch t u pairs := by
    induction h with
    | node pairs label left right _ ih =>
      choose! iso hiso using ih
      obtain ⟨rows, rfl, hleft, hright⟩ := exists_numbered left right
      exact ⟨_, levelled_matched label hleft hright fun row hrow => hiso row.2 (List.mem_map_of_mem hrow)⟩
  obtain ⟨pairs, hpairs⟩ := hlevelled
  exact ⟨pairs, hpairs.toIsIsomorphism⟩

/-- **Alike trees are those with isomorphic graphs.** -/
theorem isomorphic_iff_alike : LabelledGraph.Isomorphic t.graph u.graph nodeMatch ↔ Alike nodeMatch t u :=
  ⟨alike_of_isomorphic, isomorphic_of_alike⟩

end Isomorphic

/-! ## Trees up to the order of some children -/

/-- **The same tree**, up to the order of the children below the labels for which it does not count. -/
inductive SameUpTo (commutes : α → Prop) : RoseTree α → RoseTree α → Prop
  | node {a : α} {cs ds : List (RoseTree α)} (pairs : List (RoseTree α × RoseTree α)) (left : pairs.map Prod.fst = cs)
    (right : pairs.map Prod.snd = ds ∨ commutes a ∧ (pairs.map Prod.snd).Perm ds)
    (children : ∀ p ∈ pairs, SameUpTo commutes p.1 p.2) : SameUpTo commutes (.node a cs) (.node a ds)

/-- Each tree is the same as itself, with its children paired in order. -/
theorem SameUpTo.refl (commutes : α → Prop) (t : RoseTree α) : SameUpTo commutes t t := by
  induction t using induct with
  | h a cs ih =>
    refine .node (cs.map fun c => (c, c)) ?_ (.inl ?_) fun p hp => ?_
    · rw [List.map_map]
      exact List.map_id' cs
    · rw [List.map_map]
      exact List.map_id' cs
    · obtain ⟨c, hc, rfl⟩ := List.mem_map.mp hp
      exact ih c hc

/-- **A fold has one value for both trees** if it does not look at the order where that does not count, by induction on
the pairing of the children. -/
theorem SameUpTo.fold_eq {commutes : α → Prop} {f : α → List β → β} {t u : RoseTree α} (h : SameUpTo commutes t u)
    (hf : ∀ {a vs ws}, commutes a → vs.Perm ws → f a vs = f a ws) : t.fold f = u.fold f := by
  induction h with
  | @node a cs ds pairs left right _ ih =>
    have hvalues : cs.map (fold f) = (pairs.map Prod.snd).map (fold f) := by
      rw [← left, List.map_map, List.map_map]
      exact List.map_congr_left ih
    rw [fold_node, fold_node, hvalues]
    rcases right with rfl | ⟨hcommutes, hperm⟩
    · rfl
    · exact hf hcommutes (hperm.map _)

end RoseTree

end Assure.Library
