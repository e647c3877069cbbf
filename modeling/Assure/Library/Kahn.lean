import Assure.Library.Collections
import Mathlib.Data.Finset.Card
import Mathlib.Data.List.Sort
import Mathlib.Data.List.Nodup

/-!
# Releasing the nodes of a graph in dependency order

Kahn's algorithm over the nodes `0 … n-1`: every node has a count of the nodes it waits for; a node
whose count is zero is ready; taking a ready node lowers the counts of its consumers and readies
those that reach zero. The edges are recorded one by one (`Edges.add`), each pair once, so that the
counts and the consumer sets agree (`Edges.Counted`).

`place` is where a node goes in the ready list: at the end, or at its place in an order. `Inv` holds
whatever `place` does, `Inv.taken` is the step lemma, and `Inv.all_done` says that the algorithm does
not get stuck on a graph whose edges lead to higher nodes. When `place` keeps the ready list sorted,
every node taken is the least one that could be (`Least`).
-/

namespace Assure.Library.Kahn

open Assure.Library

/-! ## Recording the edges -/

/-- The consumers of each node and the number of nodes each one waits for. -/
structure Edges where
  consumers : Nat → Finset Nat
  count : Nat → Int

/-- No edge. -/
def Edges.empty : Edges := ⟨fun _ => ∅, fun _ => 0⟩

/-- Record that `consumer` waits for `provider`, once. -/
def Edges.add (e : Edges) (provider consumer : Nat) : Edges :=
  if consumer ∈ e.consumers provider then e
  else
    { consumers := Function.update e.consumers provider (insert consumer (e.consumers provider))
      count := Function.update e.count consumer (e.count consumer + 1) }

/-- The nodes below `n` that a node waits for. -/
def Edges.providers (e : Edges) (n j : Nat) : Finset Nat :=
  (Finset.range n).filter fun i => j ∈ e.consumers i

/-- Every count is the number of providers. -/
def Edges.Counted (e : Edges) (n : Nat) : Prop := ∀ j, e.count j = (e.providers n j).card

/-- The providers of a place are the places it is a consumer of. -/
theorem Edges.mem_providers {e : Edges} {n i j : Nat} :
    i ∈ e.providers n j ↔ i < n ∧ j ∈ e.consumers i := by simp [Edges.providers]

/-- Without edges every count is zero, as it should be. -/
theorem Edges.empty_counted (n : Nat) : Edges.empty.Counted n := fun j => by
  simp [Edges.empty, Edges.providers]

/-- Adding an edge adds one consumer. -/
theorem Edges.mem_consumers_add {e : Edges} {i j p c : Nat} :
    j ∈ (e.add p c).consumers i ↔ j ∈ e.consumers i ∨ (i = p ∧ j = c) := by
  unfold Edges.add
  split
  · rename_i hmem
    constructor
    · exact .inl
    · rintro (h | ⟨rfl, rfl⟩)
      · exact h
      · exact hmem
  · by_cases hip : i = p
    · subst hip
      simp [or_comm]
    · simp [hip]

/-- Recording an edge keeps the counts right. -/
theorem Edges.Counted.add {e : Edges} {n p c : Nat} (h : e.Counted n) (hp : p < n) :
    (e.add p c).Counted n := by
  intro j
  by_cases hmem : c ∈ e.consumers p
  · simp only [Edges.add, if_pos hmem]
    exact h j
  · have hcount : (e.add p c).count = Function.update e.count c (e.count c + 1) := by
      simp [Edges.add, hmem]
    by_cases hj : j = c
    · subst hj
      have hprov : (e.add p j).providers n j = insert p (e.providers n j) := by
        ext i
        simp only [Edges.mem_providers, Finset.mem_insert, Edges.mem_consumers_add]
        constructor
        · rintro ⟨hi, h | ⟨rfl, -⟩⟩
          · exact .inr ⟨hi, h⟩
          · exact .inl rfl
        · rintro (rfl | ⟨hi, h⟩)
          · exact ⟨hp, .inr ⟨rfl, trivial⟩⟩
          · exact ⟨hi, .inl h⟩
      have hnot : p ∉ e.providers n j := fun hin => hmem (Edges.mem_providers.mp hin).2
      rw [hcount, hprov, Finset.card_insert_of_notMem hnot, Function.update_self, h j]
      push_cast
      rfl
    · have hprov : (e.add p c).providers n j = e.providers n j := by
        ext i
        simp [Edges.mem_providers, Edges.mem_consumers_add, hj]
      rw [hcount, hprov, Function.update_of_ne hj, h j]

/-- Recording a list of edges. -/
def Edges.addAll (e : Edges) (pairs : List (Nat × Nat)) : Edges :=
  pairs.foldl (fun e p => e.add p.1 p.2) e

/-- Adding edges one after the other adds them all. -/
theorem Edges.mem_consumers_addAll {i j : Nat} : ∀ (pairs : List (Nat × Nat)) (e : Edges),
    j ∈ (e.addAll pairs).consumers i ↔ j ∈ e.consumers i ∨ (i, j) ∈ pairs
  | [], e => by simp [Edges.addAll]
  | p :: pairs, e => by
    have ih := Edges.mem_consumers_addAll (i := i) (j := j) pairs (e.add p.1 p.2)
    simp only [Edges.addAll, List.foldl_cons, List.mem_cons] at ih ⊢
    rw [ih, Edges.mem_consumers_add, or_assoc, Prod.ext_iff]

/-- Counting along keeps the counts right. -/
theorem Edges.Counted.addAll {n : Nat} : ∀ (pairs : List (Nat × Nat)) {e : Edges},
    (∀ p ∈ pairs, p.1 < n) → e.Counted n → (e.addAll pairs).Counted n
  | [], _, _, h => h
  | p :: pairs, _, hlt, h =>
    Edges.Counted.addAll pairs (fun q hq => hlt q (List.mem_cons_of_mem _ hq))
      (h.add (hlt p List.mem_cons_self))

/-! ## Taking ready nodes -/

/-- The ready nodes, the counts, and the nodes taken so far in order. -/
structure State where
  ready : List Nat
  count : Nat → Int
  done : List Nat

/-- Lower a consumer's count; ready it when the count reaches zero. -/
def release (place : List Nat → Nat → List Nat) (s : State) (j : Nat) : State :=
  { s with
    count := Function.update s.count j (s.count j - 1)
    ready := if s.count j - 1 = 0 then place s.ready j else s.ready }

/-- Take a node: what is left of the ready list, and its consumers in the order they are met. -/
def take (place : List Nat → Nat → List Nat) (s : State) (i : Nat) (rest consumers : List Nat) :
    State :=
  consumers.foldl (release place) { s with ready := rest, done := s.done ++ [i] }

variable {place : List Nat → Nat → List Nat}

/-- Releasing consumers leaves what is done. -/
@[simp] theorem done_foldl_release (l : List Nat) (s : State) :
    (l.foldl (release place) s).done = s.done := by
  induction l generalizing s with
  | nil => rfl
  | cons j l ih => rw [List.foldl_cons, ih]; rfl

/-- Releasing consumers takes one off the count of each of them. -/
theorem count_foldl_release (place : List Nat → Nat → List Nat) : ∀ (l : List Nat) (s : State), l.Nodup → ∀ k,
    (l.foldl (release place) s).count k = if k ∈ l then s.count k - 1 else s.count k
  | [], s, _, k => by simp
  | j :: l, s, hnd, k => by
    obtain ⟨hj, hnd⟩ := List.nodup_cons.mp hnd
    rw [List.foldl_cons, count_foldl_release place l _ hnd k]
    by_cases hkj : k = j
    · subst hkj
      simp [hj, release]
    · simp [release, hkj]

/-- Those whose count has gone down to zero get ready, wherever the loop puts them. -/
theorem ready_foldl_release (hplace : ∀ l j, (place l j).Perm (l ++ [j])) :
    ∀ (l : List Nat) (s : State), l.Nodup →
      (l.foldl (release place) s).ready.Perm (s.ready ++ l.filter fun k => s.count k - 1 = 0)
  | [], s, _ => by simp
  | j :: l, s, hnd => by
    obtain ⟨hj, hnd⟩ := List.nodup_cons.mp hnd
    have ih := ready_foldl_release hplace l (release place s j) hnd
    have hfilter : (l.filter fun k => (release place s j).count k - 1 = 0) =
        l.filter fun k => s.count k - 1 = 0 := by
      refine List.filter_congr fun k hk => ?_
      have hkj : k ≠ j := fun h => hj (h ▸ hk)
      simp [release, hkj]
    rw [hfilter] at ih
    rw [List.foldl_cons]
    refine ih.trans ?_
    by_cases hzero : s.count j - 1 = 0
    · simp only [release, hzero, if_true, List.filter_cons, decide_true]
      have hrest := (hplace s.ready j).append_right (l.filter fun k => s.count k - 1 = 0)
      rw [List.append_assoc] at hrest
      exact hrest
    · simp [release, hzero]

/-- **The invariant**: counts count the providers not yet taken, the nodes at zero are the ready and
the taken ones, and a taken node's providers were taken before it. -/
structure Inv (n : Nat) (e : Edges) (s : State) : Prop where
  count_eq : ∀ j, s.count j = ((e.providers n j).filter (· ∉ s.done)).card
  mem_iff : ∀ j, j ∈ s.ready ∨ j ∈ s.done ↔ j < n ∧ s.count j = 0
  nodup : (s.done ++ s.ready).Nodup
  order : ∀ pre i post, s.done = pre ++ i :: post → ∀ p ∈ e.providers n i, p ∈ pre

section Invariant

variable {n : Nat} {e : Edges} {s : State}

/-- The loop starts in its invariant: ready is what waits for nothing. -/
theorem Inv.start (h : e.Counted n) {ready : List Nat}
    (hready : ready.Perm ((List.range n).filter fun j => e.count j = 0)) :
    Inv n e ⟨ready, e.count, []⟩ where
  count_eq j := by simpa using h j
  mem_iff j := by simp [hready.mem_iff]
  nodup := by simpa using hready.nodup_iff.mpr (List.nodup_range.filter _)
  order pre i post heq := by simp at heq

/-- A node at zero has all its providers taken. -/
theorem Inv.providers_done (h : Inv n e s) {i : Nat} (hi : s.count i = 0) :
    ∀ p ∈ e.providers n i, p ∈ s.done := by
  intro p hp
  by_contra hnot
  have hzero := h.count_eq i
  rw [hi] at hzero
  have hempty : (e.providers n i).filter (· ∉ s.done) = ∅ := Finset.card_eq_zero.mp (by omega)
  exact Finset.notMem_empty p (hempty ▸ Finset.mem_filter.mpr ⟨hp, hnot⟩)

/-- A ready node is one not taken whose providers all are. -/
theorem Inv.mem_ready_iff (h : Inv n e s) {j : Nat} :
    j ∈ s.ready ↔ j < n ∧ j ∉ s.done ∧ ∀ p ∈ e.providers n j, p ∈ s.done := by
  constructor
  · intro hj
    obtain ⟨hn, hzero⟩ := (h.mem_iff j).mp (.inl hj)
    exact ⟨hn, fun hd => (List.nodup_append.mp h.nodup).2.2 j hd j hj rfl, h.providers_done hzero⟩
  · rintro ⟨hn, hnot, hall⟩
    have hzero : s.count j = 0 := by
      rw [h.count_eq j, Finset.filter_false_of_mem fun p hp => not_not.mpr (hall p hp)]
      rfl
    exact ((h.mem_iff j).mpr ⟨hn, hzero⟩).resolve_right hnot

/-- The first ready node is a node at zero that was not taken. -/
theorem Inv.head_ready (h : Inv n e s) {i : Nat} {rest : List Nat} (hready : s.ready = i :: rest) :
    (i < n ∧ s.count i = 0) ∧ i ∉ s.done := by
  refine ⟨(h.mem_iff i).mp (.inl (by simp [hready])), fun hd => ?_⟩
  exact (List.nodup_append.mp h.nodup).2.2 i hd i (by simp [hready]) rfl

/-- A consumer of a ready node still waits for it. -/
theorem Inv.consumer_pos (h : Inv n e s) {i j : Nat} {rest : List Nat}
    (hready : s.ready = i :: rest) (hj : j ∈ e.consumers i) : 1 ≤ s.count j := by
  obtain ⟨⟨hi, -⟩, hidone⟩ := h.head_ready hready
  have hmem : i ∈ (e.providers n j).filter (· ∉ s.done) :=
    Finset.mem_filter.mpr ⟨Edges.mem_providers.mpr ⟨hi, hj⟩, hidone⟩
  have hpos := Finset.card_pos.mpr ⟨i, hmem⟩
  rw [h.count_eq j]
  omega

/-- **Taking a ready node keeps the invariant.** -/
theorem Inv.taken (h : Inv n e s) (place : List Nat → Nat → List Nat)
    (hplace : ∀ l j, (place l j).Perm (l ++ [j]))
    (hbound : ∀ i j, j ∈ e.consumers i → j < n) {i : Nat} {rest consumers : List Nat}
    (hready : s.ready = i :: rest) (hnd : consumers.Nodup)
    (hcons : ∀ j, j ∈ consumers ↔ j ∈ e.consumers i) : Inv n e (take place s i rest consumers) := by
  obtain ⟨hi, hidone⟩ := h.head_ready hready
  have hall := h.nodup
  rw [hready] at hall
  -- a consumer is neither ready nor taken, since it still waits for the node taken now
  have hfresh : ∀ j ∈ consumers, j ∉ s.ready ∧ j ∉ s.done := by
    intro j hj
    have hone := h.consumer_pos hready ((hcons j).mp hj)
    exact ⟨fun hr => by have := ((h.mem_iff j).mp (.inl hr)).2; omega,
      fun hd => by have := ((h.mem_iff j).mp (.inr hd)).2; omega⟩
  have hcount : ∀ k, (take place s i rest consumers).count k =
      if k ∈ consumers then s.count k - 1 else s.count k :=
    count_foldl_release place consumers _ hnd
  have hperm : (take place s i rest consumers).ready.Perm
      (rest ++ consumers.filter fun k => s.count k - 1 = 0) :=
    ready_foldl_release hplace consumers _ hnd
  have hdone : (take place s i rest consumers).done = s.done ++ [i] := done_foldl_release _ _
  refine ⟨fun j => ?_, fun j => ?_, ?_, ?_⟩
  · rw [hcount, hdone]
    have herase : (e.providers n j).filter (· ∉ s.done ++ [i]) =
        ((e.providers n j).filter (· ∉ s.done)).erase i := by
      ext p
      simp only [Finset.mem_filter, List.mem_append, List.mem_singleton, Finset.mem_erase]
      tauto
    have hold := h.count_eq j
    split
    · rename_i hj
      have hmem : i ∈ (e.providers n j).filter (· ∉ s.done) :=
        Finset.mem_filter.mpr ⟨Edges.mem_providers.mpr ⟨hi.1, (hcons j).mp hj⟩, hidone⟩
      have hpos := Finset.card_pos.mpr ⟨i, hmem⟩
      rw [herase, Finset.card_erase_of_mem hmem]
      omega
    · rename_i hj
      rw [herase, Finset.erase_eq_of_notMem, hold]
      intro hmem
      exact hj ((hcons j).mpr (Edges.mem_providers.mp (Finset.mem_filter.mp hmem).1).2)
  · have hold := h.mem_iff j
    rw [hready, List.mem_cons] at hold
    rw [hperm.mem_iff, hdone, hcount, List.mem_append, List.mem_append, List.mem_filter,
      List.mem_singleton, decide_eq_true_eq]
    by_cases hj : j ∈ consumers
    · have hji : j ≠ i := fun heq => (hfresh j hj).1 (by rw [hready, heq]; exact List.mem_cons_self)
      have hjr : j ∉ rest := fun hr => (hfresh j hj).1 (by rw [hready]; exact List.mem_cons_of_mem _ hr)
      have hjn : j < n := hbound i j ((hcons j).mp hj)
      simp [hj, hji, hjr, hjn, (hfresh j hj).2]
    · rw [if_neg hj, ← hold]
      tauto
  · rw [hdone]
    refine ((hperm.append_left (s.done ++ [i])).nodup_iff).mpr ?_
    have hassoc : s.done ++ [i] ++ (rest ++ consumers.filter fun k => s.count k - 1 = 0) =
        (s.done ++ i :: rest) ++ consumers.filter fun k => s.count k - 1 = 0 := by simp
    rw [hassoc, List.nodup_append]
    refine ⟨hall, hnd.filter _, fun a ha b hb hab => ?_⟩
    obtain ⟨hr, hd⟩ := hfresh b (List.mem_filter.mp hb).1
    rw [← hab, hready] at hr
    rw [← hab] at hd
    rcases List.mem_append.mp ha with ha | ha
    · exact hd ha
    · exact hr ha
  · intro pre k post heq
    rw [hdone] at heq
    rcases List.eq_nil_or_concat post with rfl | ⟨post', l, rfl⟩
    · obtain ⟨rfl, hk⟩ := List.append_inj' heq rfl
      obtain rfl : i = k := by simpa using hk
      exact h.providers_done hi.2
    · have heq' : s.done ++ [i] = (pre ++ k :: post') ++ [l] := by simpa using heq
      obtain ⟨hd, -⟩ := List.append_inj' heq' rfl
      exact h.order pre k post' hd

/-- No more nodes are taken than there are. -/
theorem Inv.length_done_le (h : Inv n e s) : s.done.length ≤ n := by
  have hsub : s.done ⊆ List.range n := fun j hj => by
    simpa using ((h.mem_iff j).mp (.inr hj)).1
  simpa using ((List.nodup_append.mp h.nodup).1.subperm hsub).length_le

/-- **The algorithm does not get stuck**: when edges lead to higher nodes and nothing is ready,
every node was taken. The induction is on the node. -/
theorem Inv.all_done (h : Inv n e s) (hrank : ∀ i j, j ∈ e.consumers i → i < j)
    (hready : s.ready = []) : ∀ j, j < n → j ∈ s.done := by
  intro j
  induction j using Nat.strong_induction_on with
  | _ j ih =>
    intro hj
    by_contra hnot
    have hmem : j ∈ s.ready := h.mem_ready_iff.mpr ⟨hj, hnot, fun p hp => by
      obtain ⟨hpn, hpj⟩ := Edges.mem_providers.mp hp
      exact ih p (hrank p j hpj) hpn⟩
    rw [hready] at hmem
    exact List.not_mem_nil hmem

/-- Then the nodes taken are all nodes, each once, and every count is zero. -/
theorem Inv.done_perm (h : Inv n e s) (hrank : ∀ i j, j ∈ e.consumers i → i < j)
    (hready : s.ready = []) : s.done.Perm (List.range n) := by
  refine (List.perm_ext_iff_of_nodup (List.nodup_append.mp h.nodup).1 List.nodup_range).mpr fun j => ?_
  rw [List.mem_range]
  exact ⟨fun hj => ((h.mem_iff j).mp (.inr hj)).1, h.all_done hrank hready j⟩

end Invariant

/-! ## The greedy choice -/

section Least

variable {κ : Type*} [LinearOrder κ] {n : Nat} {e : Edges} {s : State} {rank : Nat → κ}

/-- Put a node at the end of the ready list and sort the list by rank. -/
def placeSorted (rank : Nat → κ) (ready : List Nat) (j : Nat) : List Nat :=
  sortedBy rank (ready ++ [j])

/-- **Every node taken was the least by rank of those that could be taken**, and the ready list is
in order. -/
structure Least (rank : Nat → κ) (n : Nat) (e : Edges) (s : State) : Prop where
  sorted : s.ready.Pairwise fun i j => rank i ≤ rank j
  least : ∀ pre i post, s.done = pre ++ i :: post → ∀ j < n, j ∉ pre →
    (∀ p ∈ e.providers n j, p ∈ pre) → rank i ≤ rank j

/-- At the start the ready ones are sorted and nothing is done. -/
theorem Least.start {ready : List Nat} {count : Nat → Int}
    (hsorted : ready.Pairwise fun i j => rank i ≤ rank j) :
    Least rank n e ⟨ready, count, []⟩ :=
  ⟨hsorted, fun pre i post heq => by simp at heq⟩

/-- Releasing into a sorted list keeps it sorted. -/
theorem sorted_foldl_release : ∀ (l : List Nat) (s : State),
    (s.ready.Pairwise fun i j => rank i ≤ rank j) →
      (l.foldl (release (placeSorted rank)) s).ready.Pairwise fun i j => rank i ≤ rank j
  | [], _, h => h
  | j :: l, s, h => by
    refine sorted_foldl_release l (release (placeSorted rank) s j) ?_
    unfold release
    dsimp only
    split
    · exact sortedBy_pairwise rank _
    · exact h

/-- **Taking the first ready node keeps the greedy order.** -/
theorem Least.taken (hleast : Least rank n e s) (h : Inv n e s) {i : Nat} {rest consumers : List Nat}
    (hready : s.ready = i :: rest) :
    Least rank n e (take (placeSorted rank) s i rest consumers) := by
  have hsorted := hleast.sorted
  rw [hready] at hsorted
  have hdone : (take (placeSorted rank) s i rest consumers).done = s.done ++ [i] :=
    done_foldl_release _ _
  refine ⟨sorted_foldl_release consumers _ (List.pairwise_cons.mp hsorted).2, ?_⟩
  intro pre k post heq j hj hjpre hprov
  rw [hdone] at heq
  rcases List.eq_nil_or_concat post with rfl | ⟨post', l, rfl⟩
  · obtain ⟨rfl, hk⟩ := List.append_inj' heq rfl
    obtain rfl : i = k := by simpa using hk
    have hmem : j ∈ s.ready := h.mem_ready_iff.mpr ⟨hj, hjpre, hprov⟩
    rw [hready] at hmem
    rcases List.mem_cons.mp hmem with rfl | hmem
    · exact le_rfl
    · exact (List.pairwise_cons.mp hsorted).1 j hmem
  · have heq' : s.done ++ [i] = (pre ++ k :: post') ++ [l] := by simpa using heq
    obtain ⟨hd, -⟩ := List.append_inj' heq' rfl
    exact hleast.least pre k post' hd j hj hjpre hprov

end Least

end Assure.Library.Kahn
