import Assure.Library.Digraph
import Assure.Library.Kahn

/-!
# The condensation of a graph

Given the strongly connected components of a graph, callees first, `numberOf` numbers the nodes by
their component and `condense` records one edge for every pair of components with an edge between
them. The edges lead to higher numbers (`DependsOn.lt`) and are counted right, which is what the
release algorithm of `Assure.Library.Kahn` asks for (`SccOrder.condense`).
-/

namespace Assure.Library

variable {α : Type*} [DecidableEq α]

/-- The number of the component a node is in, as two nested loops over the components enter it in a
dictionary. -/
def numberOf (components : List (List α)) : α → Option Nat :=
  components.zipIdx.foldl
    (fun m component => component.1.foldl (fun m v => Function.update m v (some component.2)) m)
    fun _ => none

/-- Giving all vertices of a group one number gives it to those of the group and leaves the others.
-/
theorem foldl_update_apply (number : Nat) (u : α) : ∀ (C : List α) (m : α → Option Nat),
    C.foldl (fun m v => Function.update m v (some number)) m u = if u ∈ C then some number else m u
  | [], m => by simp
  | v :: C, m => by
    rw [List.foldl_cons, foldl_update_apply number u C]
    by_cases huv : u = v
    · subst huv; simp
    · simp [huv]

/-- A node of no component keeps the number it had. -/
theorem foldl_zipIdx_of_notMem (u : α) : ∀ (components : List (List α)) (k : Nat)
    (m : α → Option Nat), u ∉ components.flatten →
      (components.zipIdx k).foldl
        (fun m C => C.1.foldl (fun m v => Function.update m v (some C.2)) m) m u = m u
  | [], _, _, _ => rfl
  | C :: components, k, m, hu => by
    rw [List.flatten_cons, List.mem_append, not_or] at hu
    rw [List.zipIdx_cons, List.foldl_cons, foldl_zipIdx_of_notMem u components _ _ hu.2,
      foldl_update_apply, if_neg hu.1]

/-- A node of a component gets the component's number, whatever number it had. -/
theorem foldl_zipIdx_of_mem (u : α) : ∀ (components : List (List α)) (k j : Nat)
    (m : α → Option Nat) (C : List α), components.flatten.Nodup → components[j]? = some C → u ∈ C →
      (components.zipIdx k).foldl
        (fun m C => C.1.foldl (fun m v => Function.update m v (some C.2)) m) m u = some (k + j)
  | [], _, _, _, _, _, hj, _ => by simp at hj
  | D :: components, k, 0, m, C, hnd, hj, hu => by
    obtain rfl : D = C := by simpa using hj
    rw [List.flatten_cons, List.nodup_append] at hnd
    have hrest : u ∉ components.flatten := fun hmem => hnd.2.2 u hu u hmem rfl
    rw [List.zipIdx_cons, List.foldl_cons, foldl_zipIdx_of_notMem u components _ _ hrest,
      foldl_update_apply, if_pos hu, Nat.add_zero]
  | D :: components, k, j + 1, m, C, hnd, hj, hu => by
    rw [List.flatten_cons, List.nodup_append] at hnd
    rw [List.zipIdx_cons, List.foldl_cons,
      foldl_zipIdx_of_mem u components (k + 1) j _ C hnd.2.1 (by simpa using hj) hu]
    congr 1
    omega

/-- **A node's number is the position of its component.** -/
theorem numberOf_eq_some_iff {components : List (List α)} (hnd : components.flatten.Nodup) {u : α}
    {i : Nat} : numberOf components u = some i ↔ ∃ C, components[i]? = some C ∧ u ∈ C := by
  constructor
  · intro h
    by_cases hu : u ∈ components.flatten
    · obtain ⟨C, hC, huC⟩ := List.mem_flatten.mp hu
      obtain ⟨j, hj⟩ := List.mem_iff_getElem?.mp hC
      have hnum := foldl_zipIdx_of_mem u components 0 j (fun _ => none) C hnd hj huC
      rw [Nat.zero_add] at hnum
      obtain rfl : j = i := Option.some.inj (hnum.symm.trans h)
      exact ⟨C, hj, huC⟩
    · have hnone := foldl_zipIdx_of_notMem u components 0 (fun _ => none) hu
      rw [numberOf, hnone] at h
      cases h
  · rintro ⟨C, hC, huC⟩
    have hnum := foldl_zipIdx_of_mem u components 0 i (fun _ => none) C hnd hC huC
    rwa [Nat.zero_add] at hnum

/-- The edge between components that a dependency of `u` on `v` gives, if they are in two. -/
def condensedPair (number : α → Option Nat) (dep : α × α) : Option (Nat × Nat) :=
  (number dep.1).bind fun i =>
    (number dep.2).bind fun d => if d = i then none else some (d, i)

/-- The edges between components that a list of dependencies gives. -/
def condense (number : α → Option Nat) (deps : List (α × α)) : Kahn.Edges :=
  Kahn.Edges.empty.addAll (deps.filterMap (condensedPair number))

omit [DecidableEq α] in
/-- A dependency gives an edge between groups exactly if its ends are numbered and lie in different
groups. -/
theorem condensedPair_eq_some {number : α → Option Nat} {dep : α × α} {d i : Nat} :
    condensedPair number dep = some (d, i) ↔
      d ≠ i ∧ number dep.1 = some i ∧ number dep.2 = some d := by
  unfold condensedPair
  cases hi : number dep.1 with
  | none => simp
  | some i' =>
    cases hd : number dep.2 with
    | none => simp
    | some d' =>
      by_cases h : d' = i'
      · subst h
        simp only [Option.bind_some, if_true, reduceCtorEq, Option.some.injEq, false_iff]
        rintro ⟨hne, rfl, rfl⟩
        exact hne rfl
      · simp only [Option.bind_some, if_neg h, Option.some.injEq, Prod.mk.injEq]
        constructor
        · rintro ⟨rfl, rfl⟩
          exact ⟨h, rfl, rfl⟩
        · rintro ⟨-, rfl, rfl⟩
          exact ⟨rfl, rfl⟩

omit [DecidableEq α] in
/-- Two nested loops over the nodes and their dependencies condense the graph. -/
theorem condense_flatMap (number : α → Option Nat) (sources : List α) (deps : α → List α) :
    condense number (sources.flatMap fun u => (deps u).map fun v => (u, v)) =
      sources.foldl (fun e u => (deps u).foldl (fun e v =>
        match condensedPair number (u, v) with
        | some p => e.add p.1 p.2
        | none => e) e) Kahn.Edges.empty := by
  rw [condense, Kahn.Edges.addAll, List.foldl_filterMap, List.foldl_flatMap]
  simp only [List.foldl_map]
  congr 1
  funext e u
  congr 1
  funext e v
  cases condensedPair number (u, v) <;> rfl

omit [DecidableEq α] in
/-- The consumers of a group are the groups of what depends on it. -/
theorem mem_consumers_condense {number : α → Option Nat} {deps : List (α × α)} {d i : Nat} :
    i ∈ (condense number deps).consumers d ↔
      d ≠ i ∧ ∃ dep ∈ deps, number dep.1 = some i ∧ number dep.2 = some d := by
  rw [condense, Kahn.Edges.mem_consumers_addAll]
  simp only [Kahn.Edges.empty, Finset.notMem_empty, false_or, List.mem_filterMap,
    condensedPair_eq_some]
  constructor
  · rintro ⟨dep, hdep, hne, hi, hd⟩
    exact ⟨hne, dep, hdep, hi, hd⟩
  · rintro ⟨hne, dep, hdep, hi, hd⟩
    exact ⟨dep, hdep, hne, hi, hd⟩

omit [DecidableEq α] in
/-- The edges between groups are counted right, which is what Kahn's loop needs. -/
theorem condense_counted {number : α → Option Nat} {deps : List (α × α)} {n : Nat}
    (hn : ∀ v i, number v = some i → i < n) : (condense number deps).Counted n := by
  refine Kahn.Edges.Counted.addAll _ (fun p hp => ?_) (Kahn.Edges.empty_counted n)
  obtain ⟨dep, -, hpair⟩ := List.mem_filterMap.mp hp
  exact hn dep.2 p.1 (condensedPair_eq_some.mp hpair).2.2

/-- Component `i` has an edge into another component `d`. -/
def DependsOn (adj : α → List α) (components : List (List α)) (i d : Nat) : Prop :=
  i ≠ d ∧ ∃ C D, components[i]? = some C ∧ components[d]? = some D ∧ ∃ u ∈ C, ∃ v ∈ D, v ∈ adj u

section Components

variable {adj : α → List α} {nodes : List α} {components : List (List α)}

omit [DecidableEq α] in
/-- A node is in one component only. -/
theorem SccOrder.index_unique (h : SccOrder adj nodes components) {i j : Nat} {C D : List α} {u : α}
    (hC : components[i]? = some C) (hD : components[j]? = some D) (huC : u ∈ C) (huD : u ∈ D) :
    i = j := by
  classical
  have hi := (numberOf_eq_some_iff h.nodup).mpr ⟨C, hC, huC⟩
  have hj := (numberOf_eq_some_iff h.nodup).mpr ⟨D, hD, huD⟩
  exact Option.some.inj (hi.symm.trans hj)

omit [DecidableEq α] in
/-- An edge leads to the same component or an earlier one. -/
theorem SccOrder.index_le (h : SccOrder adj nodes components) {i d : Nat} {C D : List α} {u v : α}
    (hC : components[i]? = some C) (hD : components[d]? = some D) (hu : u ∈ C) (hv : v ∈ D)
    (huv : v ∈ adj u) : d ≤ i := by
  obtain ⟨hlt, hget⟩ := List.getElem?_eq_some_iff.mp hC
  have hsplit : components = components.take i ++ C :: components.drop (i + 1) := by
    rw [← hget, ← List.drop_eq_getElem_cons hlt, List.take_append_drop]
  rcases h.calleesFirst _ _ _ hsplit u hu v huv with hvC | hpre
  · exact (h.index_unique hC hD hvC hv).ge
  · obtain ⟨E, hE, hvE⟩ := List.mem_flatten.mp hpre
    obtain ⟨k, hk⟩ := List.mem_iff_getElem?.mp hE
    have hki : k < i := by
      have hlen := (List.getElem?_eq_some_iff.mp hk).1
      rw [List.length_take] at hlen
      omega
    rw [List.getElem?_take_of_lt hki] at hk
    exact (h.index_unique hD hk hv hvE).trans_le hki.le

omit [DecidableEq α] in
/-- **Edges between components lead to higher numbers.** -/
theorem SccOrder.dependsOn_lt (h : SccOrder adj nodes components) {i d : Nat}
    (hid : DependsOn adj components i d) : d < i := by
  obtain ⟨hne, C, D, hC, hD, u, hu, v, hv, huv⟩ := hid
  exact lt_of_le_of_ne (h.index_le hC hD hu hv huv) hne.symm

/-- **The condensation has the edges of the graph between components.** -/
theorem SccOrder.mem_consumers_condense (h : SccOrder adj nodes components) {deps : List (α × α)}
    (hdeps : ∀ u v, (u, v) ∈ deps ↔ u ∈ nodes ∧ v ∈ adj u) {d i : Nat} :
    i ∈ (condense (numberOf components) deps).consumers d ↔ DependsOn adj components i d := by
  rw [Assure.Library.mem_consumers_condense]
  constructor
  · rintro ⟨hne, ⟨u, v⟩, hdep, hi, hd⟩
    obtain ⟨C, hC, hu⟩ := (numberOf_eq_some_iff h.nodup).mp hi
    obtain ⟨D, hD, hv⟩ := (numberOf_eq_some_iff h.nodup).mp hd
    exact ⟨hne.symm, C, D, hC, hD, u, hu, v, hv, ((hdeps u v).mp hdep).2⟩
  · rintro ⟨hne, C, D, hC, hD, u, hu, v, hv, huv⟩
    have hmem : u ∈ nodes := (h.cover u).mp (List.mem_flatten.mpr ⟨C, List.mem_of_getElem? hC, hu⟩)
    exact ⟨hne.symm, (u, v), (hdeps u v).mpr ⟨hmem, huv⟩,
      (numberOf_eq_some_iff h.nodup).mpr ⟨C, hC, hu⟩,
      (numberOf_eq_some_iff h.nodup).mpr ⟨D, hD, hv⟩⟩

/-- Every node of the graph has a number, and numbers are positions. -/
theorem SccOrder.numberOf_isSome (h : SccOrder adj nodes components) {u : α} (hu : u ∈ nodes) :
    ∃ i, numberOf components u = some i := by
  obtain ⟨C, hC, huC⟩ := List.mem_flatten.mp ((h.cover u).mpr hu)
  obtain ⟨i, hi⟩ := List.mem_iff_getElem?.mp hC
  exact ⟨i, (numberOf_eq_some_iff h.nodup).mpr ⟨C, hi, huC⟩⟩

/-- The numbers are those of the groups. -/
theorem SccOrder.numberOf_lt (h : SccOrder adj nodes components) {u : α} {i : Nat}
    (hi : numberOf components u = some i) : i < components.length := by
  obtain ⟨C, hC, -⟩ := (numberOf_eq_some_iff h.nodup).mp hi
  exact (List.getElem?_eq_some_iff.mp hC).1

end Components

end Assure.Library
