import Mathlib.Logic.Relation
import Mathlib.Data.List.Nodup
import Mathlib.Data.List.Pairwise

/-!
# Reachability and component orders

A directed graph is its adjacency function. `Reach` is reachability along it, `Linked` mutual
reachability, and `SccOrder` says that a list of lists is the graph's strongly connected
components, each after every component it has an edge into.

The lemmas after `SccOrder` are what a user of a component order needs: edges and paths never lead
to a later component (`reach_earlier`), and two nodes share a component exactly when they are
linked (`mem_iff_linked`).
-/

namespace Assure.Library

open Relation

variable {α : Type*} {adj : α → List α}

/-- **Reachability** along the edges of `adj`. -/
def Reach (adj : α → List α) : α → α → Prop := ReflTransGen fun u v => v ∈ adj u

/-- Each of two nodes is reachable from the other. -/
def Linked (adj : α → List α) (u v : α) : Prop := Reach adj u v ∧ Reach adj v u

namespace Reach

/-- Every vertex reaches itself. -/
theorem refl (u : α) : Reach adj u u := ReflTransGen.refl

/-- An edge reaches its end. -/
theorem edge {u v : α} (h : v ∈ adj u) : Reach adj u v := ReflTransGen.single h

/-- What is reached from something reached is reached. -/
theorem trans {u v w : α} (h : Reach adj u v) (h' : Reach adj v w) : Reach adj u w :=
  ReflTransGen.trans h h'

/-- A set of nodes with no edge out of it holds everything reachable from its members. -/
theorem closed {P : α → Prop} (hP : ∀ u, P u → ∀ v ∈ adj u, P v) {u v : α} (h : Reach adj u v)
    (hu : P u) : P v := by
  induction h with
  | refl => exact hu
  | tail _ he ih => exact hP _ ih _ he

/-- Reachability depends on the edges alone, not on the order they are listed in. -/
theorem congr {adj' : α → List α} (h : ∀ u v, v ∈ adj u ↔ v ∈ adj' u) {u v : α} :
    Reach adj u v ↔ Reach adj' u v := by
  have heq : (fun u v => v ∈ adj u) = fun u v => v ∈ adj' u :=
    funext fun u => funext fun v => propext (h u v)
  unfold Reach
  rw [heq]

end Reach

namespace Linked

/-- Every vertex is linked to itself. -/
theorem refl (u : α) : Linked adj u u := ⟨.refl u, .refl u⟩

/-- Being linked goes both ways. -/
theorem symm {u v : α} (h : Linked adj u v) : Linked adj v u := ⟨h.2, h.1⟩

/-- What is linked to something linked is linked. -/
theorem trans {u v w : α} (h : Linked adj u v) (h' : Linked adj v w) : Linked adj u w :=
  ⟨h.1.trans h'.1, h'.2.trans h.2⟩

end Linked

/-- Every edge out of a component stays in it or leads to an earlier one. -/
def CalleesFirst (adj : α → List α) (components : List (List α)) : Prop :=
  ∀ pre C post, components = pre ++ C :: post → ∀ u ∈ C, ∀ v ∈ adj u, v ∈ C ∨ v ∈ pre.flatten

/-- **The strongly connected components of the graph on `nodes`, callees first.** -/
structure SccOrder (adj : α → List α) (nodes : List α) (components : List (List α)) : Prop where
  nonempty : ∀ C ∈ components, C ≠ []
  nodup : components.flatten.Nodup
  cover : ∀ v, v ∈ components.flatten ↔ v ∈ nodes
  strong : ∀ C ∈ components, ∀ u ∈ C, ∀ v ∈ C, Reach adj u v
  calleesFirst : CalleesFirst adj components

/-- In the empty order all callees come first. -/
theorem CalleesFirst.nil : CalleesFirst adj [] := by
  intro pre C post h
  simp at h

/-- One more component at the end keeps the order when its edges stay in it or go back. -/
theorem CalleesFirst.snoc {components : List (List α)} {D : List α} (h : CalleesFirst adj components)
    (hD : ∀ u ∈ D, ∀ v ∈ adj u, v ∈ D ∨ v ∈ components.flatten) :
    CalleesFirst adj (components ++ [D]) := by
  intro pre C post heq
  rcases List.eq_nil_or_concat post with rfl | ⟨post', E, rfl⟩
  · obtain ⟨rfl, hCD⟩ := List.append_inj' heq rfl
    obtain rfl : D = C := by simpa using hCD
    exact hD
  · have heq' : components ++ [D] = (pre ++ C :: post') ++ [E] := by simpa using heq
    obtain ⟨rfl, -⟩ := List.append_inj' heq' rfl
    exact h pre C post' rfl

/-- The nodes of the components up to any point have no edge out. -/
theorem CalleesFirst.prefix_closed (pre post : List (List α)) (h : CalleesFirst adj (pre ++ post)) :
    ∀ u ∈ pre.flatten, ∀ v ∈ adj u, v ∈ pre.flatten := by
  intro u hu v hv
  obtain ⟨C, hC, huC⟩ := List.mem_flatten.mp hu
  obtain ⟨l, r, rfl⟩ := List.append_of_mem hC
  rcases h l C (r ++ post) (by simp) u huC v hv with hv | hv
  · simp [hv]
  · rw [List.flatten_append]
    exact List.mem_append_left _ hv

/-- Everything reachable from a component lies in it or in an earlier one. -/
theorem CalleesFirst.reach_earlier {pre post : List (List α)} {C : List α}
    (h : CalleesFirst adj (pre ++ C :: post)) {u v : α} (hu : u ∈ C) (huv : Reach adj u v) :
    v ∈ C ∨ v ∈ pre.flatten := by
  have hpre : (pre ++ [C]) ++ post = pre ++ C :: post := by simp
  have hclosed := CalleesFirst.prefix_closed (pre ++ [C]) post (hpre ▸ h)
  have hv := huv.closed hclosed (by simp [hu])
  simpa [or_comm] using hv

namespace SccOrder

variable {nodes : List α} {components : List (List α)}

/-- Two occurrences of a node are in one component. -/
theorem unique (h : SccOrder adj nodes components) {C D : List α} (hC : C ∈ components)
    (hD : D ∈ components) {v : α} (hvC : v ∈ C) (hvD : v ∈ D) : C = D := by
  by_contra hne
  have : Std.Symm (List.Disjoint : List α → List α → Prop) := ⟨fun _ _ h _ hb ha => h ha hb⟩
  exact (List.nodup_flatten.mp h.nodup).2.forall hC hD hne hvC hvD

/-- A linked node is in the same component. -/
theorem mem_of_linked (h : SccOrder adj nodes components) {C : List α} (hC : C ∈ components)
    {u v : α} (hu : u ∈ C) (huv : Linked adj u v) : v ∈ C := by
  obtain ⟨pre, post, rfl⟩ := List.append_of_mem hC
  rcases h.calleesFirst.reach_earlier hu huv.1 with hv | hv
  · exact hv
  -- an earlier component would have to reach back to `u`, and its prefix is closed
  · have hu' : u ∈ pre.flatten :=
      huv.2.closed (CalleesFirst.prefix_closed pre (C :: post) h.calleesFirst) hv
    have hnd := h.nodup
    rw [List.flatten_append, List.flatten_cons] at hnd
    exact ((List.nodup_append.mp hnd).2.2 u hu' u (List.mem_append_left _ hu) rfl).elim

/-- **Two nodes share a component exactly when each is reachable from the other.** -/
theorem mem_iff_linked (h : SccOrder adj nodes components) {C : List α} (hC : C ∈ components)
    {u v : α} (hu : u ∈ C) : v ∈ C ↔ Linked adj u v :=
  ⟨fun hv => ⟨h.strong C hC u hu v hv, h.strong C hC v hv u hu⟩, h.mem_of_linked hC hu⟩

/-- Sorting or otherwise permuting the members of each component changes nothing. -/
theorem nodup_of_mem (h : SccOrder adj nodes components) {C : List α} (hC : C ∈ components) :
    C.Nodup := (List.nodup_flatten.mp h.nodup).1 C hC

end SccOrder

end Assure.Library
