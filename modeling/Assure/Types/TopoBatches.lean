import Assure.Library.GreedyOrder
import Assure.Library.Loop
import Assure.Types.TarjanScc

/-!
# The batches types are translated in

`_compute_topo_batches` condenses the graph into its components and releases these in dependency
order, the least ready component by sort key first. The batches are therefore the greedy order of
the graph (`TypeDependencyGraph.Batches`), of which there is one, so the order in which nodes were
inserted and sets are iterated over does not matter (`topoBatches_batches`).

`order` and `idOrder` are the orders in which sets of nodes and sets of component numbers are
iterated over. `topo_batches` stores its result; computing it again gives the same one.

The result is for every graph. The sort keys of types are told apart by
`TypeNodeKey.sortKey_injective`, which is what makes the order unique.
-/

namespace Assure

open Assure.Library

namespace TypeDependencyGraph

/-- `_component_sort_key`: the sort key of a component's first member, `⊥` for an empty component,
where the source raises. No component is empty. -/
def componentSortKey (component : List TypeNodeKey) : WithBot (Nat ×ₗ String) :=
  (sortedKeys component).head?.map TypeNodeKey.sortKey

/-- `component_index`. -/
def componentIndex (sccs : List (List TypeNodeKey)) : TypeNodeKey → Option Nat := numberOf sccs

/-- `component_graph` and `indegree`: `none` when a node is in no component. -/
def componentEdges (order : SetOrder TypeNodeKey) (g : TypeDependencyGraph)
    (index : TypeNodeKey → Option Nat) : Option Kahn.Edges :=
  g.nodes.foldlM (fun e source =>
    (index source).bind fun sourceComponent =>
      (order.toList (g.adjacency source)).foldlM (fun e dependency =>
        (index dependency).map fun dependencyComponent =>
          if dependencyComponent = sourceComponent then e
          else e.add dependencyComponent sourceComponent) e)
    Kahn.Edges.empty

/-- **One pass of `while ready`**: take the first ready component, and put the dependents it was the
last to hold back at their place in the ready list. -/
def readyPass (idOrder : SetOrder Nat) (edges : Kahn.Edges) (rank : Nat → WithBot (Nat ×ₗ String))
    (s : Kahn.State) : Option Kahn.State :=
  match s.ready with
  | [] => none
  | idx :: rest => some (Kahn.take (Kahn.placeSorted rank) s idx rest
      (sortedBy rank (idOrder.toList (edges.consumers idx))))

/-- **`_compute_topo_batches`**: `none` if it raises or does not end. -/
def topoBatches (order : SetOrder TypeNodeKey) (idOrder : SetOrder Nat)
    (g : TypeDependencyGraph) : Option (List (List TypeNodeKey)) :=
  (g.tarjanScc order).bind fun sccs =>
    (g.componentEdges order (componentIndex sccs)).bind fun edges =>
      let rank idx := componentSortKey (sccs.getD idx [])
      let ready := sortedBy rank ((List.range sccs.length).filter fun idx => edges.count idx = 0)
      (whileLoop (fun s => !s.ready.isEmpty) (readyPass idOrder edges rank) sccs.length
        ⟨ready, edges.count, []⟩).bind fun s => s.done.mapM fun idx => sccs[idx]?.map sortedKeys

/-! ## The condensation -/

variable {order : SetOrder TypeNodeKey} {idOrder : SetOrder Nat} {g : TypeDependencyGraph}
  {sccs : List (List TypeNodeKey)}

/-- The dependencies of the graph, one by one. -/
def dependencies (order : SetOrder TypeNodeKey) (g : TypeDependencyGraph) :
    List (TypeNodeKey × TypeNodeKey) :=
  g.nodes.flatMap fun source => (order.toList (g.adjacency source)).map fun target => (source, target)

/-- The dependencies that are counted are the edges of the graph. -/
theorem mem_dependencies {u v : TypeNodeKey} :
    (u, v) ∈ g.dependencies order ↔ u ∈ g.nodes ∧ v ∈ g.sortedDependencies order u := by
  simp only [dependencies, List.mem_flatMap, List.mem_map, order.mem_toList, Prod.mk.injEq,
    mem_sortedDependencies]
  constructor
  · rintro ⟨u', hu', v', hv', rfl, rfl⟩
    exact ⟨hu', hv'⟩
  · rintro ⟨hu, hv⟩
    exact ⟨u, hu, v, hv, rfl, rfl⟩

/-- The nested loops find every node's component and condense the graph. -/
theorem componentEdges_eq (h : SccOrder (g.sortedDependencies order) g.nodes sccs) :
    g.componentEdges order (componentIndex sccs) =
      some (condense (numberOf sccs) (g.dependencies order)) := by
  rw [dependencies, condense_flatMap, componentEdges]
  refine foldlM_eq_some_foldl _ _ fun e source hsource => ?_
  obtain ⟨i, hi⟩ := h.numberOf_isSome hsource
  rw [componentIndex, hi, Option.bind_some]
  refine foldlM_eq_some_foldl _ _ fun e target htarget => ?_
  obtain ⟨d, hd⟩ := h.numberOf_isSome (g.mem_nodes source target (order.mem_toList _ _ |>.mp htarget)).2
  rw [hd, Option.map_some, condensedPair, hi, hd]
  by_cases hdi : d = i <;> simp [hdi]

/-! ## The loop -/

/-- **The loop ends with every component taken**, the least first. -/
theorem readyLoop_ends (idOrder : SetOrder Nat) {edges : Kahn.Edges} {n : Nat} (rank : Nat → WithBot (Nat ×ₗ String))
    (hcounted : edges.Counted n) (hrank : ∀ i j, j ∈ edges.consumers i → i < j ∧ j < n) :
    ∃ s, whileLoop (fun s => !s.ready.isEmpty) (readyPass idOrder edges rank) n
        ⟨sortedBy rank ((List.range n).filter fun idx => edges.count idx = 0), edges.count, []⟩ =
          some s ∧
      Kahn.Inv n edges s ∧ Kahn.Least rank n edges s ∧ s.ready = [] := by
  obtain ⟨s, hs, ⟨hInv, hleast⟩, hdone⟩ := whileLoop_spec
    (fun s : Kahn.State => !s.ready.isEmpty) (readyPass idOrder edges rank)
    (fun s => Kahn.Inv n edges s ∧ Kahn.Least rank n edges s) (fun s => n - s.done.length)
    (fun s hs hcond => by
      obtain ⟨hInv, hleast⟩ := hs
      cases hready : s.ready with
      | nil => simp [hready] at hcond
      | cons idx rest =>
        have hplace : ∀ l j, (Kahn.placeSorted rank l j).Perm (l ++ [j]) :=
          fun l j => sortedBy_perm rank _
        have hnd : (sortedBy rank (idOrder.toList (edges.consumers idx))).Nodup :=
          (sortedBy_perm rank _).nodup_iff.mpr (idOrder.nodup _)
        have hInv' := hInv.taken _ hplace (fun i j hij => (hrank i j hij).2) hready hnd
          fun j => by rw [mem_sortedBy, idOrder.mem_toList]
        have hle := hInv'.length_done_le
        refine ⟨_, by rw [readyPass, hready], ⟨hInv', hleast.taken hInv hready⟩, ?_⟩
        rw [Kahn.take, Kahn.done_foldl_release, List.length_append, List.length_singleton] at hle ⊢
        omega)
    n ⟨sortedBy rank ((List.range n).filter fun idx => edges.count idx = 0), edges.count, []⟩
    ⟨.start hcounted (sortedBy_perm rank _), .start (sortedBy_pairwise rank _)⟩ (Nat.sub_le _ _)
  exact ⟨s, hs, hInv, hleast, by simpa using hdone⟩

/-- **`topoBatches` raises nothing and returns the greedy order of the graph.** -/
theorem topoBatches_greedy (order : SetOrder TypeNodeKey) (idOrder : SetOrder Nat)
    (g : TypeDependencyGraph) : ∃ batches, g.topoBatches order idOrder = some batches ∧
      GreedyOrder (g.sortedDependencies order) g.nodes componentSortKey batches ∧
      ∀ batch ∈ batches, ∃ l, batch = sortedKeys l := by
  obtain ⟨sccs, hsccs, h⟩ := g.tarjanScc_spec order
  have hconsumers : ∀ d i, i ∈ (condense (numberOf sccs) (g.dependencies order)).consumers d ↔
      DependsOn (g.sortedDependencies order) sccs i d :=
    fun d i => h.mem_consumers_condense fun _ _ => mem_dependencies
  have hrank : ∀ d i, i ∈ (condense (numberOf sccs) (g.dependencies order)).consumers d →
      d < i ∧ i < sccs.length := by
    intro d i hi
    have hdep := (hconsumers d i).mp hi
    obtain ⟨-, C, -, hC, -⟩ := hdep
    exact ⟨h.dependsOn_lt ((hconsumers d i).mp hi), (List.getElem?_eq_some_iff.mp hC).1⟩
  obtain ⟨s, hs, hInv, hleast, hready⟩ := readyLoop_ends idOrder
    (fun idx => componentSortKey (sccs.getD idx []))
    (condense_counted fun _ _ hi => h.numberOf_lt hi) hrank
  have hperm := hInv.done_perm (fun d i hi => (hrank d i hi).1) hready
  have hbatches : (s.done.mapM fun idx => sccs[idx]?.map sortedKeys) =
      some (s.done.map fun idx => sortedKeys (sccs.getD idx [])) :=
    mapM_eq_some_map _ fun idx hidx => by rw [getD_of_mem_order hperm hidx, Option.map_some]
  -- a provider of a component is a component it depends on
  have hprov : ∀ (pre : List Nat) (j : Nat), (∀ d, DependsOn (g.sortedDependencies order) sccs j d →
      d ∈ pre) ↔ ∀ p ∈ (condense (numberOf sccs) (g.dependencies order)).providers sccs.length j,
        p ∈ pre := by
    intro pre j
    simp only [Kahn.Edges.mem_providers, hconsumers]
    exact ⟨fun hall p hp => hall p hp.2, fun hall d hd => hall d ⟨(h.dependsOn_lt hd).trans
      (hrank d j ((hconsumers d j).mpr hd)).2, hd⟩⟩
  have hkey : ∀ i, componentSortKey (sortedKeys (sccs.getD i [])) =
      componentSortKey (sccs.getD i []) := fun i => by
    rw [componentSortKey, sortedKeys_sortedKeys, componentSortKey]
  refine ⟨_, ?_, h.greedy sortedKeys_perm hperm
    (fun pre i post heq => (hprov pre i).mpr (hInv.order pre i post heq))
    (fun pre i post heq j hj hjpre hdeps => ?_), fun batch hbatch => ?_⟩
  · rw [topoBatches, hsccs, Option.bind_some, componentEdges_eq h, Option.bind_some]
    simp only [hs, Option.bind_some, hbatches]
  · rw [hkey, hkey]
    exact hleast.least pre i post heq j hj hjpre ((hprov pre j).mp hdeps)
  · obtain ⟨idx, -, rfl⟩ := List.mem_map.mp hbatch
    exact ⟨_, rfl⟩

/-! ## The batches of a graph -/

/-- **The batches of a graph**: its strongly connected components, every node in one, members in
order, dependencies first, and at every position the least component by sort key of those whose
dependencies were all listed before. -/
structure Batches (g : TypeDependencyGraph) (batches : List (List TypeNodeKey)) : Prop where
  partition : batches.flatten.Perm g.nodes
  nonempty : ∀ batch ∈ batches, batch ≠ []
  linked : ∀ batch ∈ batches, ∀ a ∈ batch, ∀ b, b ∈ batch ↔ g.Reaches a b ∧ g.Reaches b a
  sorted : ∀ batch ∈ batches, batch.Pairwise fun a b => a.sortKey < b.sortKey
  dependenciesFirst : ∀ earlier batch later, batches = earlier ++ batch :: later →
    ∀ a ∈ batch, ∀ b ∈ g.adjacency a, b ∈ batch ∨ b ∈ earlier.flatten
  least : ∀ earlier batch later, batches = earlier ++ batch :: later → ∀ other ∈ later,
    (∀ a ∈ other, ∀ b ∈ g.adjacency a, b ∈ other ∨ b ∈ earlier.flatten) →
      componentSortKey batch < componentSortKey other

/-- Components with one sort key share a member. -/
theorem componentSortKey_inj {C D : List TypeNodeKey} (hC : C ≠ [])
    (h : componentSortKey C = componentSortKey D) : ∃ key ∈ C, key ∈ D := by
  unfold componentSortKey at h
  cases hsC : sortedKeys C with
  | nil => exact absurd (hsC ▸ sortedKeys_perm C).nil_eq.symm hC
  | cons a restC =>
    cases hsD : sortedKeys D with
    | nil => simp [hsC, hsD] at h
    | cons b restD =>
      rw [hsC, hsD] at h
      obtain rfl : a = b := TypeNodeKey.sortKey_injective (Option.some.inj h)
      exact ⟨a, mem_sortedKeys.mp (by simp [hsC]), mem_sortedKeys.mp (by simp [hsD])⟩

/-- A greedy order whose batches are sorted is the batches that are asked for. -/
theorem Batches.of_greedyOrder {batches : List (List TypeNodeKey)}
    (h : GreedyOrder (g.sortedDependencies order) g.nodes componentSortKey batches)
    (hsorted : ∀ batch ∈ batches, ∃ l, batch = sortedKeys l) : g.Batches batches where
  partition := (List.perm_ext_iff_of_nodup h.nodup g.nodup).mpr h.cover
  nonempty := h.nonempty
  linked batch hbatch a ha b := by
    rw [h.mem_iff_linked hbatch ha, Linked, reach_sortedDependencies, reach_sortedDependencies]
  sorted batch hbatch := by
    obtain ⟨l, rfl⟩ := hsorted batch hbatch
    exact sortedKeys_pairwise ((sortedKeys_perm l).nodup_iff.mp (h.nodup_of_mem hbatch))
  dependenciesFirst earlier batch later heq a ha b hb :=
    h.calleesFirst earlier batch later heq a ha b (mem_sortedDependencies.mpr hb)
  least earlier batch later heq other hother havail := by
    refine lt_of_le_of_ne (h.least earlier batch later heq other hother fun a ha b hb =>
      havail a ha b (mem_sortedDependencies.mp hb)) fun hkey => ?_
    obtain ⟨key, hkeyb, hkeyo⟩ := componentSortKey_inj (h.nonempty batch (by simp [heq])) hkey
    have hnd := h.nodup
    rw [heq, List.flatten_append, List.flatten_cons] at hnd
    exact (List.nodup_append.mp (List.nodup_append.mp hnd).2.1).2.2 key hkeyb key
      (List.mem_flatten.mpr ⟨other, hother, hkeyo⟩) rfl

/-- **`topo_batches` returns the batches of every graph**: each node in one batch, together with what is in a cycle
with it, and as early as what it depends on allows. They are the same whatever order the nodes were inserted in and
the sets are iterated over. -/
theorem topoBatches_batches (g : TypeDependencyGraph) (order : SetOrder TypeNodeKey)
    (idOrder : SetOrder Nat) :
    ∃ batches, g.topoBatches order idOrder = some batches ∧ g.Batches batches ∧
      ∀ (g' : TypeDependencyGraph) (order' : SetOrder TypeNodeKey) (idOrder' : SetOrder Nat),
        g'.nodes.Perm g.nodes → g'.adjacency = g.adjacency →
          g'.topoBatches order' idOrder' = some batches := by
  obtain ⟨batches, hrun, h, hsorted⟩ := topoBatches_greedy order idOrder g
  refine ⟨batches, hrun, .of_greedyOrder h hsorted, fun g' order' idOrder' hnodes hadj => ?_⟩
  obtain ⟨batches', hrun', h', hsorted'⟩ := topoBatches_greedy order' idOrder' g'
  rw [hrun']
  refine congrArg some (h'.eq (fun u v => ?_) (fun v => hnodes.mem_iff) ?_ h fun C hC D _ hkey => ?_)
  · rw [mem_sortedDependencies, mem_sortedDependencies, hadj]
  · intro C hC D hD hperm
    obtain ⟨l, rfl⟩ := hsorted' C hC
    obtain ⟨l', rfl⟩ := hsorted D hD
    rw [← sortedKeys_sortedKeys l, ← sortedKeys_sortedKeys l']
    exact sortedKeys_congr hperm
  · exact componentSortKey_inj (h'.nonempty C hC) hkey

end TypeDependencyGraph

end Assure
