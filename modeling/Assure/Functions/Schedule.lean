import Assure.Functions.TopoQueue

/-!
# The schedule of the function groups

Whatever the units do, the loop over the queue takes every group once, after the groups it depends
on, lowers each in-degree one by one to exactly zero, and ends with nothing left over. The queue
`createSccTopoQueue` builds satisfies `SccTopoQueue.Sound`; `SccLoop.Inv` is the invariant of the
loop, `SccLoop.Inv.pass` the step lemma, and `sccLoop_runs` the run lemma.

What a unit does to the world is a parameter, and it may fail, which ends the run. The result is
about every run, and about the queue that is built as well as about any other sound one.
-/

namespace Assure

open Assure.Library

/-! ## The queue -/

/-- Group `i` depends on another group `d`: a function of the one calls one of the other. -/
def SccTopoQueue.DependsOn (q : SccTopoQueue) (funcMap : FuncMap) (i d : Nat) : Prop :=
  i ≠ d ∧ ∃ C D, q.sccs[i]? = some C ∧ q.sccs[d]? = some D ∧ ∃ f ∈ C, ∃ g ∈ D, funcMap.Callee f g

/-- The consumers and in-degrees of the queue as edges of the release algorithm. -/
def SccTopoQueue.edges (q : SccTopoQueue) : Kahn.Edges := ⟨q.sccConsumers, q.sccIncomingEdges⟩

/-- **A queue fit for the loop**: the groups of the map, an edge for every dependency between two of
them, in-degrees that count the edges, and the groups with none queued. -/
structure SccTopoQueue.Sound (q : SccTopoQueue) (funcMap : FuncMap) : Prop where
  groups : SccOrder funcMap.adjacency funcMap.keys q.sccs
  consumers_iff : ∀ d i, i ∈ q.sccConsumers d ↔ q.DependsOn funcMap i d
  counted : q.edges.Counted q.sccs.length
  queue_eq : q.sccQueue = (List.range q.sccs.length).filter fun sccId => q.sccIncomingEdges sccId = 0

/-- The dependencies between groups are the edges of the condensation. -/
theorem SccTopoQueue.dependsOn_iff {q : SccTopoQueue} {funcMap : FuncMap} {i d : Nat} :
    q.DependsOn funcMap i d ↔ Library.DependsOn funcMap.adjacency q.sccs i d := by
  simp only [SccTopoQueue.DependsOn, Library.DependsOn, FuncMap.mem_adjacency]

/-- **`createSccTopoQueue` raises nothing and builds a sound queue.** -/
theorem createSccTopoQueue_sound (funcMap : FuncMap) (typeCodes : List (Option String)) :
    ∃ q, createSccTopoQueue funcMap typeCodes = some q ∧ q.Sound funcMap ∧
      ∀ C ∈ q.sccs, ∃ l, C = sortedNames l := by
  obtain ⟨sccs, hsccs, hscc, hsorted⟩ := findStronglyConnectedComponents_spec funcMap
  -- a dependency outside the map has no number, so the condensation's edges are those inside it
  have hedges : sccEdges funcMap (funcToScc sccs) = condense (numberOf sccs)
      (funcMap.keys.flatMap fun f => (funcMap.dependFunctions f).map fun g => (f, g)) :=
    sccEdges_eq funcMap (funcToScc sccs)
  refine ⟨_, by rw [createSccTopoQueue, hsccs]; rfl, ⟨hscc, fun d i => ?_, ?_, rfl⟩, hsorted⟩
  · show i ∈ (sccEdges funcMap (funcToScc sccs)).consumers d ↔ _
    rw [hedges, mem_consumers_condense, SccTopoQueue.dependsOn_iff]
    constructor
    · rintro ⟨hne, ⟨f, g⟩, hdep, hf, hg⟩
      obtain ⟨f', -, hmem⟩ := List.mem_flatMap.mp hdep
      obtain ⟨g', hg', heq⟩ := List.mem_map.mp hmem
      cases heq
      obtain ⟨C, hC, hfC⟩ := (numberOf_eq_some_iff hscc.nodup).mp hf
      obtain ⟨D, hD, hgD⟩ := (numberOf_eq_some_iff hscc.nodup).mp hg
      have hkey := (hscc.cover g).mp (List.mem_flatten.mpr ⟨D, List.mem_of_getElem? hD, hgD⟩)
      exact ⟨hne.symm, C, D, hC, hD, f, hfC, g, hgD, FuncMap.mem_adjacency.mpr ⟨hg', hkey⟩⟩
    · rintro ⟨hne, C, D, hC, hD, f, hfC, g, hgD, hfg⟩
      have hkey := (hscc.cover f).mp (List.mem_flatten.mpr ⟨C, List.mem_of_getElem? hC, hfC⟩)
      have hdep := (FuncMap.mem_adjacency.mp hfg).1
      exact ⟨hne.symm, (f, g),
        List.mem_flatMap.mpr ⟨f, hkey, List.mem_map.mpr ⟨g, hdep, rfl⟩⟩,
        (numberOf_eq_some_iff hscc.nodup).mpr ⟨C, hC, hfC⟩,
        (numberOf_eq_some_iff hscc.nodup).mpr ⟨D, hD, hgD⟩⟩
  · show (sccEdges funcMap (funcToScc sccs)).Counted sccs.length
    rw [hedges]
    exact condense_counted fun f i h => hscc.numberOf_lt h

section Queue

variable {q : SccTopoQueue} {funcMap : FuncMap}

/-- Dependencies lead to earlier groups. -/
theorem SccTopoQueue.Sound.dependsOn_lt (hq : q.Sound funcMap) {i d : Nat}
    (h : q.DependsOn funcMap i d) : d < i :=
  hq.groups.dependsOn_lt (SccTopoQueue.dependsOn_iff.mp h)

/-- A group that depends on something is a group. -/
theorem SccTopoQueue.Sound.consumer_lt (hq : q.Sound funcMap) {i d : Nat}
    (h : i ∈ q.sccConsumers d) : i < q.sccs.length := by
  obtain ⟨-, C, -, hC, -⟩ := (hq.consumers_iff d i).mp h
  exact (List.getElem?_eq_some_iff.mp hC).1

end Queue

/-! ## The loop -/

/-- `k - 1, …, 1, 0`. -/
def countdown (k : Int) : List Int := (List.range k.toNat).reverse.map Int.ofNat

/-- A counter that is still positive goes down by one. -/
theorem countdown_of_pos {k : Int} (h : 1 ≤ k) : countdown k = (k - 1) :: countdown (k - 1) := by
  have hk : k.toNat = (k - 1).toNat + 1 := by omega
  have hcast : Int.ofNat (k - 1).toNat = k - 1 := by
    rw [Int.ofNat_eq_natCast]
    omega
  rw [countdown, hk, List.range_succ, List.reverse_append, List.map_append, List.reverse_singleton,
    List.map_singleton, hcast]
  rfl

variable {ω : Type*} {q : SccTopoQueue} {funcMap : FuncMap} {order : SetOrder Nat}

/-- The scheduling variables of the loop. -/
def SccLoop.toKahn (st : SccLoop ω) : Kahn.State := ⟨st.sccQueue, st.sccIncomingEdges, st.dequeued⟩

/-- Lowering an in-degree is a release to the end of the queue. -/
theorem SccLoop.toKahn_foldl_decrement : ∀ (l : List Nat) (st : SccLoop ω),
    (l.foldl SccLoop.decrement st).toKahn =
      l.foldl (Kahn.release fun ready j => ready ++ [j]) st.toKahn
  | [], _ => rfl
  | j :: l, st => SccLoop.toKahn_foldl_decrement l (st.decrement j)

/-- Counting a group off leaves the world as it is. -/
@[simp] theorem SccLoop.world_foldl_decrement : ∀ (l : List Nat) (st : SccLoop ω),
    (l.foldl SccLoop.decrement st).world = st.world
  | [], _ => rfl
  | j :: l, st => SccLoop.world_foldl_decrement l (st.decrement j)

/-- It leaves what has been dequeued as well. -/
@[simp] theorem SccLoop.dequeued_foldl_decrement : ∀ (l : List Nat) (st : SccLoop ω),
    (l.foldl SccLoop.decrement st).dequeued = st.dequeued
  | [], _ => rfl
  | j :: l, st => SccLoop.dequeued_foldl_decrement l (st.decrement j)

/-- What the history gains: each consumer's in-degree once. -/
theorem SccLoop.decrements_foldl_decrement : ∀ (l : List Nat) (st : SccLoop ω), l.Nodup → ∀ k,
    (l.foldl SccLoop.decrement st).decrements k =
      if k ∈ l then st.decrements k ++ [st.sccIncomingEdges k - 1] else st.decrements k
  | [], st, _, k => by simp
  | j :: l, st, hnd, k => by
    obtain ⟨hj, hnd⟩ := List.nodup_cons.mp hnd
    rw [List.foldl_cons, SccLoop.decrements_foldl_decrement l _ hnd k]
    by_cases hkj : k = j
    · subst hkj
      simp [hj, SccLoop.decrement]
    · simp [SccLoop.decrement, hkj]

/-- **What one pass does**: it dequeues the first group, runs its unit, and lowers its consumers. -/
theorem sccPass_cases {unit : ω → List String → Option ω} {st st' : SccLoop ω}
    (h : sccPass order q unit st = some st') :
    ∃ sccId rest sccGroup world, st.sccQueue = sccId :: rest ∧ q.sccs[sccId]? = some sccGroup ∧
      unit st.world sccGroup = some world ∧
      st' = (order.toList (q.sccConsumers sccId)).foldl SccLoop.decrement
        { st with sccQueue := rest, world := world, dequeued := st.dequeued ++ [sccId] } := by
  unfold sccPass at h
  split at h
  · cases h
  · rename_i sccId rest hqueue
    split at h
    · cases h
    · rename_i sccGroup hgroup
      obtain ⟨world, hunit, rfl⟩ := Option.map_eq_some_iff.mp h
      exact ⟨sccId, rest, sccGroup, world, hqueue, hgroup, hunit, rfl⟩

/-- **The invariant of the loop**: the release algorithm's, and a history that with the countdown
still ahead of each in-degree makes the whole countdown. -/
structure SccLoop.Inv (q : SccTopoQueue) (st : SccLoop ω) : Prop where
  kahn : Kahn.Inv q.sccs.length q.edges st.toKahn
  history : ∀ j, st.decrements j ++ countdown (st.sccIncomingEdges j) =
    countdown (q.sccIncomingEdges j)

/-- The loop starts in a state that keeps the invariant. -/
theorem SccLoop.Inv.start (hq : q.Sound funcMap) (world : ω) : (SccLoop.start q world).Inv q where
  kahn := .start hq.counted (List.Perm.of_eq hq.queue_eq)
  history _ := rfl

/-- **A pass keeps the invariant.** -/
theorem SccLoop.Inv.pass {unit : ω → List String → Option ω} {st st' : SccLoop ω} (h : st.Inv q)
    (hq : q.Sound funcMap) (hpass : sccPass order q unit st = some st') :
    st'.Inv q ∧ st'.dequeued.length = st.dequeued.length + 1 := by
  obtain ⟨sccId, rest, sccGroup, world, hqueue, -, -, rfl⟩ := sccPass_cases hpass
  have hready : st.toKahn.ready = sccId :: rest := hqueue
  have hcons : ∀ j, j ∈ order.toList (q.sccConsumers sccId) ↔ j ∈ q.edges.consumers sccId :=
    fun j => order.mem_toList _ j
  have hnd := order.nodup (q.sccConsumers sccId)
  have htaken := h.kahn.taken (fun ready j => ready ++ [j]) (fun _ _ => .refl _)
    (fun _ _ hj => hq.consumer_lt hj) hready hnd hcons
  have hK := SccLoop.toKahn_foldl_decrement (order.toList (q.sccConsumers sccId))
    { st with sccQueue := rest, world := world, dequeued := st.dequeued ++ [sccId] }
  refine ⟨⟨hK ▸ htaken, fun j => ?_⟩, ?_⟩
  · have hcount := congrFun (congrArg Kahn.State.count hK) j
    have hfold := Kahn.count_foldl_release (fun ready j => ready ++ [j])
      (order.toList (q.sccConsumers sccId)) ⟨rest, st.sccIncomingEdges, st.dequeued ++ [sccId]⟩ hnd j
    have hnew := hcount.trans hfold
    simp only [SccLoop.toKahn] at hnew
    rw [SccLoop.decrements_foldl_decrement _ _ hnd, hnew]
    split
    · rename_i hj
      have hpos : 1 ≤ st.sccIncomingEdges j := h.kahn.consumer_pos hready ((hcons j).mp hj)
      rw [List.append_assoc, List.singleton_append, ← countdown_of_pos hpos]
      exact h.history j
    · exact h.history j
  · simp

/-- A pass whose unit returns is taken whenever a group is queued. -/
theorem sccPass_isSome (order : SetOrder Nat) {st : SccLoop ω} (h : st.Inv q) (unit : ω → List String → ω)
    (hne : st.sccQueue ≠ []) :
    ∃ st', sccPass order q (fun w g => some (unit w g)) st = some st' := by
  obtain ⟨sccId, rest, hqueue⟩ := List.exists_cons_of_ne_nil hne
  have hlt : sccId < q.sccs.length :=
    ((h.kahn.mem_iff sccId).mp (.inl (by simp [SccLoop.toKahn, hqueue]))).1
  simp [sccPass, hqueue, List.getElem?_eq_getElem hlt]

/-- In every state between passes the queued groups wait for nothing and no in-degree is negative. -/
theorem SccLoop.Inv.counts {st : SccLoop ω} (h : st.Inv q) :
    (∀ j ∈ st.sccQueue, st.sccIncomingEdges j = 0) ∧ ∀ j, 0 ≤ st.sccIncomingEdges j := by
  refine ⟨fun j hj => ((h.kahn.mem_iff j).mp (.inl hj)).2, fun j => ?_⟩
  have hcount : st.sccIncomingEdges j = _ := h.kahn.count_eq j
  omega

/-- Every state that the loop reaches keeps the invariant, by induction over the run. -/
theorem SccLoop.Inv.reached {unit : ω → List String → Option ω} {world : ω} {st : SccLoop ω}
    (hq : q.Sound funcMap) (hst : SccLoop.Reached order q unit world st) : st.Inv q := by
  induction hst with
  | refl => exact .start hq world
  | tail _ hpass ih => exact (ih.pass hq hpass).1

/-- The loop ends in a state it reached by passes. -/
theorem runSccLoop_reached {unit : ω → List String → Option ω} {world : ω} {st : SccLoop ω}
    (h : runSccLoop order q unit world = some st) : SccLoop.Reached order q unit world st :=
  whileLoop_keeps (SccLoop.Reached order q unit world) (fun _ _ hs _ hpass => hs.tail hpass)
    q.sccs.length (.start q world) st .refl h

/-- **Units that return leave the loop running to its end**, within one pass a group. -/
theorem sccLoop_runs (order : SetOrder Nat) (hq : q.Sound funcMap) (unit : ω → List String → ω) (world : ω) :
    ∃ st, runSccLoop order q (fun w g => some (unit w g)) world = some st ∧ st.Inv q ∧
      st.sccQueue = [] := by
  obtain ⟨st, hst, hInv, hdone⟩ := whileLoop_spec
    (fun st : SccLoop ω => !st.sccQueue.isEmpty)
    (sccPass order q fun w g => some (unit w g))
    (fun st => st.Inv q) (fun st => q.sccs.length - st.dequeued.length)
    (fun st h hcond => by
      obtain ⟨st', hpass⟩ := sccPass_isSome order h unit (by simpa using hcond)
      obtain ⟨h', hlen⟩ := h.pass hq hpass
      have hle : st'.dequeued.length ≤ q.sccs.length := h'.kahn.length_done_le
      exact ⟨st', hpass, h', by omega⟩)
    q.sccs.length (.start q world) (.start hq world) (Nat.sub_le _ _)
  exact ⟨st, hst, hInv, by simpa using hdone⟩

/-- **The schedule of the loop**: every group once, after the groups it depends on; every in-degree
lowered one by one to exactly zero; nothing left over. -/
structure SccLoop.Scheduled (q : SccTopoQueue) (funcMap : FuncMap) (st : SccLoop ω) : Prop where
  once : st.dequeued.Perm (List.range q.sccs.length)
  providersFirst : ∀ earlier i later, st.dequeued = earlier ++ i :: later →
    ∀ d, q.DependsOn funcMap i d → d ∈ earlier
  lowered : ∀ j, st.decrements j = countdown (q.sccIncomingEdges j) ∧ st.sccIncomingEdges j = 0
  leftover : st.leftover q = []

/-- When the queue is empty at the end, the invariant says that every group has been dequeued after
all that it depends on. -/
theorem SccLoop.Inv.scheduled {st : SccLoop ω} (h : st.Inv q) (hq : q.Sound funcMap)
    (hempty : st.sccQueue = []) : st.Scheduled q funcMap := by
  have hrank : ∀ i j, j ∈ q.edges.consumers i → i < j := fun i j hj =>
    hq.dependsOn_lt ((hq.consumers_iff i j).mp hj)
  have hdone : ∀ j < q.sccs.length, j ∈ st.dequeued := h.kahn.all_done hrank hempty
  have hzero : ∀ j, st.sccIncomingEdges j = 0 := by
    intro j
    by_cases hj : j < q.sccs.length
    · exact ((h.kahn.mem_iff j).mp (.inr (hdone j hj))).2
    · have hcount : st.sccIncomingEdges j = _ := h.kahn.count_eq j
      have hnone : q.edges.providers q.sccs.length j = ∅ := by
        refine Finset.eq_empty_of_forall_notMem fun i hi => hj ?_
        exact hq.consumer_lt (Kahn.Edges.mem_providers.mp hi).2
      rw [hcount, hnone]
      rfl
  refine ⟨h.kahn.done_perm hrank hempty, fun earlier i later heq d hd => ?_, fun j => ⟨?_, hzero j⟩, ?_⟩
  · have hlt : d < q.sccs.length := by
      obtain ⟨-, _, D, -, hD, -⟩ := hd
      exact (List.getElem?_eq_some_iff.mp hD).1
    exact h.kahn.order earlier i later heq d
      (Kahn.Edges.mem_providers.mpr ⟨hlt, (hq.consumers_iff d i).mpr hd⟩)
  · have hhist := h.history j
    rw [hzero j] at hhist
    simpa [countdown] using hhist
  · simp [SccLoop.leftover, hzero]

/-- **The loop runs its schedule for every function map and every behaviour of the units.** The queue it is given has
the strongly connected components of the map for its groups, with their dependencies; each of them is taken once, and
on the way no in-degree is negative and only groups at zero are queued. -/
theorem sccLoop_schedule (funcMap : FuncMap) (typeCodes : List (Option String))
    (order : SetOrder Nat) (unit : ω → List String → ω) (world : ω) :
    ∃ q st, createSccTopoQueue funcMap typeCodes = some q ∧ q.Sound funcMap ∧
      runSccLoop order q (fun w g => some (unit w g)) world = some st ∧
      SccLoop.Scheduled q funcMap st ∧
      ∀ st', SccLoop.Reached order q (fun w g => some (unit w g)) world st' →
        (∀ j ∈ st'.sccQueue, st'.sccIncomingEdges j = 0) ∧ ∀ j, 0 ≤ st'.sccIncomingEdges j := by
  obtain ⟨q, hcreate, hq, -⟩ := createSccTopoQueue_sound funcMap typeCodes
  obtain ⟨st, hst, hInv, hempty⟩ := sccLoop_runs order hq unit world
  exact ⟨q, st, hcreate, hq, hst, hInv.scheduled hq hempty,
    fun st' hreach => (SccLoop.Inv.reached hq hreach).counts⟩

end Assure
