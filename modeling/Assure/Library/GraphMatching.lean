import Mathlib.Data.List.Perm.Subperm
import Mathlib.Data.List.Nodup
import Mathlib.Data.List.Permutation
import Mathlib.Tactic.Common

/-!
# Matching labelled graphs

Two directed graphs are compared by a partial matching of their nodes, a list of pairs. A matching of
all nodes that respects labels and edges is an isomorphism. An edit path is any partial matching:
what it leaves out is deleted on the one side and inserted on the other, and its cost counts the
operations. Two graphs at cost zero are isomorphic (`IsEditPath.isomorphic`).
-/

namespace Assure.Library

/-- **A directed graph** with labelled nodes, nodes and edges in the order they were added. -/
structure LabelledGraph (ι α : Type*) where
  nodes : List ι
  nodup : nodes.Nodup
  label : ι → α
  edges : List (ι × ι)
  edges_mem : ∀ e ∈ edges, e.1 ∈ nodes ∧ e.2 ∈ nodes

namespace LabelledGraph

variable {ι κ α β : Type*} [DecidableEq ι] [DecidableEq κ]

/-- **An isomorphism** as the list of its pairs. -/
structure IsIsomorphism (G : LabelledGraph ι α) (H : LabelledGraph κ β) (nodeMatch : α → β → Bool)
    (pairs : List (ι × κ)) : Prop where
  left : (pairs.map Prod.fst).Perm G.nodes
  right : (pairs.map Prod.snd).Perm H.nodes
  label : ∀ p ∈ pairs, nodeMatch (G.label p.1) (H.label p.2) = true
  edge : ∀ p ∈ pairs, ∀ q ∈ pairs, (p.1, q.1) ∈ G.edges ↔ (p.2, q.2) ∈ H.edges

/-- The graphs are isomorphic under a matcher of labels. -/
def Isomorphic (G : LabelledGraph ι α) (H : LabelledGraph κ β) (nodeMatch : α → β → Bool) : Prop :=
  ∃ pairs, IsIsomorphism G H nodeMatch pairs

/-- **An edit path**: a matching of some nodes. -/
structure IsEditPath (G : LabelledGraph ι α) (H : LabelledGraph κ β) (pairs : List (ι × κ)) : Prop where
  left : (pairs.map Prod.fst).Nodup
  leftMem : pairs.map Prod.fst ⊆ G.nodes
  right : (pairs.map Prod.snd).Nodup
  rightMem : pairs.map Prod.snd ⊆ H.nodes

/-- What an edit path costs: nodes deleted, inserted and substituted by ones that do not match, and
edges deleted and inserted. -/
def editCost (G : LabelledGraph ι α) (H : LabelledGraph κ β) (nodeMatch : α → β → Bool) (pairs : List (ι × κ)) :
    Nat :=
  (G.nodes.length - pairs.length) + (H.nodes.length - pairs.length) +
    pairs.countP (fun p => !nodeMatch (G.label p.1) (H.label p.2)) +
    G.edges.countP (fun e => decide ¬ ∃ p ∈ pairs, ∃ q ∈ pairs,
      (p.1, q.1) = e ∧ (p.2, q.2) ∈ H.edges) +
    H.edges.countP (fun e => decide ¬ ∃ p ∈ pairs, ∃ q ∈ pairs,
      (p.2, q.2) = e ∧ (p.1, q.1) ∈ G.edges)

variable {G : LabelledGraph ι α} {H : LabelledGraph κ β} {nodeMatch : α → β → Bool} {pairs : List (ι × κ)}

section Pairs

omit [DecidableEq ι] [DecidableEq κ]

/-- Two pairs with one first node are the same. -/
theorem pair_eq_of_fst (h : (pairs.map Prod.fst).Nodup) {p q : ι × κ} (hp : p ∈ pairs)
    (hq : q ∈ pairs) (heq : p.1 = q.1) : p = q :=
  List.inj_on_of_nodup_map h hp hq heq

/-- A vertex on the right has one partner. -/
theorem pair_eq_of_snd (h : (pairs.map Prod.snd).Nodup) {p q : ι × κ} (hp : p ∈ pairs)
    (hq : q ∈ pairs) (heq : p.2 = q.2) : p = q :=
  List.inj_on_of_nodup_map h hp hq heq

namespace IsIsomorphism

/-- Every vertex on the left has a partner. -/
theorem exists_snd (h : IsIsomorphism G H nodeMatch pairs) {u : ι} (hu : u ∈ G.nodes) :
    ∃ v, (u, v) ∈ pairs := by
  obtain ⟨⟨_, v⟩, hp, rfl⟩ := List.mem_map.mp (h.left.mem_iff.mpr hu)
  exact ⟨v, hp⟩

/-- Every vertex on the right is a partner. -/
theorem exists_fst (h : IsIsomorphism G H nodeMatch pairs) {v : κ} (hv : v ∈ H.nodes) :
    ∃ u, (u, v) ∈ pairs := by
  obtain ⟨⟨u, _⟩, hp, rfl⟩ := List.mem_map.mp (h.right.mem_iff.mpr hv)
  exact ⟨u, hp⟩

/-- Partners are vertices of the second graph. -/
theorem mem_right (h : IsIsomorphism G H nodeMatch pairs) {p : ι × κ} (hp : p ∈ pairs) :
    p.2 ∈ H.nodes :=
  h.right.mem_iff.mp (List.mem_map_of_mem hp)

end IsIsomorphism

/-- Isomorphic graphs have equally many nodes. -/
theorem Isomorphic.length_eq (h : Isomorphic G H nodeMatch) :
    G.nodes.length = H.nodes.length := by
  obtain ⟨pairs, h⟩ := h
  rw [← h.left.length_eq, ← h.right.length_eq, List.length_map, List.length_map]

/-- The matching of no nodes is an edit path: everything is deleted and inserted. -/
theorem isEditPath_nil (G : LabelledGraph ι α) (H : LabelledGraph κ β) : IsEditPath G H [] :=
  ⟨List.nodup_nil, List.nil_subset _, List.nodup_nil, List.nil_subset _⟩

end Pairs

/-- **An edit path that costs nothing is an isomorphism.** -/
theorem IsEditPath.isomorphic (h : IsEditPath G H pairs)
    (hcost : editCost G H nodeMatch pairs = 0) : IsIsomorphism G H nodeMatch pairs := by
  unfold editCost at hcost
  obtain ⟨⟨⟨⟨hdeleted, hinserted⟩, hlabels⟩, hlost⟩, hadded⟩ :
      (((G.nodes.length - pairs.length = 0 ∧ H.nodes.length - pairs.length = 0) ∧
        pairs.countP (fun p => !nodeMatch (G.label p.1) (H.label p.2)) = 0) ∧
        G.edges.countP (fun e => decide ¬ ∃ p ∈ pairs, ∃ q ∈ pairs,
          (p.1, q.1) = e ∧ (p.2, q.2) ∈ H.edges) = 0) ∧
        H.edges.countP (fun e => decide ¬ ∃ p ∈ pairs, ∃ q ∈ pairs,
          (p.2, q.2) = e ∧ (p.1, q.1) ∈ G.edges) = 0 := by omega
  rw [List.countP_eq_zero] at hlabels hlost hadded
  have hleft := (List.subperm_of_subset h.left h.leftMem).perm_of_length_le (by simp; omega)
  have hright := (List.subperm_of_subset h.right h.rightMem).perm_of_length_le (by simp; omega)
  refine ⟨hleft, hright, fun p hp => by simpa using hlabels p hp, fun p hp q hq => ?_⟩
  constructor
  · intro hedge
    have hkept : ∃ p' ∈ pairs, ∃ q' ∈ pairs, (p'.1, q'.1) = (p.1, q.1) ∧
        (p'.2, q'.2) ∈ H.edges := by simpa using hlost _ hedge
    obtain ⟨p', hp', q', hq', heq, himage⟩ := hkept
    obtain ⟨hfst, hsnd⟩ := Prod.mk.inj heq
    obtain rfl := pair_eq_of_fst h.left hp' hp hfst
    obtain rfl := pair_eq_of_fst h.left hq' hq hsnd
    exact himage
  · intro hedge
    have hkept : ∃ p' ∈ pairs, ∃ q' ∈ pairs, (p'.2, q'.2) = (p.2, q.2) ∧
        (p'.1, q'.1) ∈ G.edges := by simpa using hadded _ hedge
    obtain ⟨p', hp', q', hq', heq, himage⟩ := hkept
    obtain ⟨hfst, hsnd⟩ := Prod.mk.inj heq
    obtain rfl := pair_eq_of_snd h.right hp' hp hfst
    obtain rfl := pair_eq_of_snd h.right hq' hq hsnd
    exact himage

/-! ## Deciding isomorphism -/

instance (G : LabelledGraph ι α) (H : LabelledGraph κ β) (nodeMatch : α → β → Bool) (pairs : List (ι × κ)) :
    Decidable (IsIsomorphism G H nodeMatch pairs) :=
  decidable_of_iff
    ((pairs.map Prod.fst).Perm G.nodes ∧ (pairs.map Prod.snd).Perm H.nodes ∧
      (∀ p ∈ pairs, nodeMatch (G.label p.1) (H.label p.2) = true) ∧
      ∀ p ∈ pairs, ∀ q ∈ pairs, (p.1, q.1) ∈ G.edges ↔ (p.2, q.2) ∈ H.edges)
    ⟨fun h => ⟨h.1, h.2.1, h.2.2.1, h.2.2.2⟩, fun h => ⟨h.left, h.right, h.label, h.edge⟩⟩

omit [DecidableEq ι] [DecidableEq κ] in
/-- An isomorphism can be listed in the order of the first graph's nodes. -/
theorem isomorphic_iff : Isomorphic G H nodeMatch ↔
    ∃ l ∈ H.nodes.permutations, IsIsomorphism G H nodeMatch (G.nodes.zip l) := by
  constructor
  · intro h
    obtain ⟨pairs, h⟩ := h
    obtain ⟨sorted, hfst, hperm⟩ :=
      (congrFun (congrFun (List.eq_map_comp_perm Prod.fst) G.nodes) pairs).mpr h.left.symm
    have hzip : G.nodes.zip (sorted.map Prod.snd) = sorted := by
      rw [hfst, ← List.unzip_fst, ← List.unzip_snd]
      exact List.zip_unzip sorted
    refine ⟨sorted.map Prod.snd, ?_, ?_⟩
    · rw [List.mem_permutations]
      exact (hperm.map Prod.snd).trans h.right
    · rw [hzip]
      refine ⟨.of_eq hfst.symm, (hperm.map Prod.snd).trans h.right, ?_, ?_⟩
      · intro p hp
        exact h.label p (hperm.mem_iff.mp hp)
      · intro p hp q hq
        exact h.edge p (hperm.mem_iff.mp hp) q (hperm.mem_iff.mp hq)
  · intro h
    obtain ⟨l, -, h⟩ := h
    exact ⟨_, h⟩

instance (G : LabelledGraph ι α) (H : LabelledGraph κ β) (nodeMatch : α → β → Bool) :
    Decidable (Isomorphic G H nodeMatch) :=
  decidable_of_iff _ isomorphic_iff.symm

end LabelledGraph

end Assure.Library
