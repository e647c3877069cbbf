import Assure.Functions.FuncMap
import Assure.Library.Loop
import Assure.Library.TarjanRun
import Mathlib.Data.List.Sort

/-!
# Mutually recursive groups of functions

`findStronglyConnectedComponents` is Tarjan's algorithm with an explicit work stack: each entry is a
node and the iterator over its neighbours, which the `for` loop resumes. `scanNeighbors` is that
loop up to its `break`, `processTop` one pass of `while workStack`, `visitStart` one pass of the
outer loop.

The program takes the steps of the machine of `Assure.Library.Tarjan` (`processTop_steps`), so its
correctness is the machine's. What is its own is the control flow: the inner loop raises nothing and
ends, because a pass either enters a node or pops one (`workMeasure`).

The result is for every map: the groups are the strongly connected components of its call graph,
each once, callees first. Callees that are no functions of the map play no part.
-/

namespace Assure

open Assure.Library Assure.Library.Tarjan

variable {adj : String → List String} {nodes : List String}

/-- `adj`: the dependencies of a function that are in the map, repeated ones and the function itself
included. -/
def FuncMap.adjacency (funcMap : FuncMap) (node : String) : List String :=
  (funcMap.dependFunctions node).filter fun dep => dep ∈ funcMap.keys

/-- `tuple(sorted(component))`. -/
def sortedNames (component : List String) : List String := component.insertionSort (· ≤ ·)

/-- **`for nextNode in neighbors`** over the iterator of the top entry, up to the `break`: the work
stack and the search after it, and whether it was left by the `break` (`advanced`). -/
def scanNeighbors (adj : String → List String) (currentNode : String) (below : List (Frame String)) :
    List String → Search String → Config String × Bool
  | [], s => (⟨(currentNode, []) :: below, s⟩, false)
  | nextNode :: neighbors, s =>
    match s.indexMap nextNode with
    | none => (⟨(nextNode, adj nextNode) :: (currentNode, neighbors) :: below, s.enter nextNode⟩, true)
    | some i =>
      if nextNode ∈ s.onStack then scanNeighbors adj currentNode below neighbors (s.lower currentNode i)
      else scanNeighbors adj currentNode below neighbors s

/-- **One pass of `while workStack`**: look at the top entry's neighbours; when none is left to enter,
pop the entry, hand out its component if it heads one, and pass its low-link to its parent. -/
def processTop (adj : String → List String) (c : Config String) : Option (Config String) :=
  match c.frames with
  | [] => none
  | (currentNode, neighbors) :: below =>
    match scanNeighbors adj currentNode below neighbors c.search with
    | (c', true) => some c'
    | (c', false) =>
      (c'.search.close sortedNames currentNode).map fun s => ⟨below, s.passUp currentNode below⟩

/-- One pass of `for startNode in nodes`. -/
def visitStart (adj : String → List String) (fuel : Nat) (s : Search String) (startNode : String) :
    Option (Search String) :=
  if (s.indexMap startNode).isSome then some s
  else
    (whileLoop (fun c => !c.frames.isEmpty) (processTop adj) fuel
      ⟨[(startNode, adj startNode)], s.enter startNode⟩).map Config.search

/-- **`findStronglyConnectedComponents`**: `none` if it raises or does not end. -/
def findStronglyConnectedComponents (funcMap : FuncMap) : Option (List (List String)) :=
  let nodes := funcMap.keys
  (nodes.foldlM (visitStart funcMap.adjacency (2 * nodes.length + 1)) Search.empty).map
    Search.components

/-! ## The program takes the machine's steps -/

/-- Sorting names loses none. -/
theorem sortedNames_perm (l : List String) : (sortedNames l).Perm l := l.perm_insertionSort _

/-- The `for` loop takes steps, and leaves the top entry's neighbours used up unless it broke off. -/
theorem scanNeighbors_steps (adj : String → List String) (nodes : List String)
    (currentNode : String) (below : List (Frame String)) :
    ∀ (neighbors : List String) (s : Search String),
      Steps adj sortedNames nodes ⟨(currentNode, neighbors) :: below, s⟩
          (scanNeighbors adj currentNode below neighbors s).1 ∧
        ((scanNeighbors adj currentNode below neighbors s).2 = false →
          (scanNeighbors adj currentNode below neighbors s).1.frames = (currentNode, []) :: below)
  | [], s => ⟨.refl, fun _ => rfl⟩
  | nextNode :: neighbors, s => by
    unfold scanNeighbors
    cases hseen : s.indexMap nextNode with
    | none => exact ⟨.single (.tree hseen), fun h => by simp at h⟩
    | some i =>
      by_cases hon : nextNode ∈ s.onStack
      · obtain ⟨hsteps, hend⟩ := scanNeighbors_steps adj nodes currentNode below neighbors (s.lower currentNode i)
        simp only [if_pos hon]
        exact ⟨.head (.back hseen hon) hsteps, hend⟩
      · obtain ⟨hsteps, hend⟩ := scanNeighbors_steps adj nodes currentNode below neighbors s
        simp only [if_neg hon]
        exact ⟨.head (.cross hseen hon) hsteps, hend⟩

/-- The measure of the inner loop: a pass that enters a node adds one entry and takes one unvisited
node away, a pass that enters none pops an entry. -/
def workMeasure (nodes : List String) (c : Config String) : Nat :=
  2 * unvisited nodes c.search + c.frames.length

/-- What the `for` loop does to the measure. -/
theorem scanNeighbors_measure (adj : String → List String) (currentNode : String)
    (below : List (Frame String)) :
    ∀ (neighbors : List String) (s : Search String), neighbors ⊆ nodes →
      if (scanNeighbors adj currentNode below neighbors s).2 then
        workMeasure nodes (scanNeighbors adj currentNode below neighbors s).1 <
          workMeasure nodes ⟨(currentNode, neighbors) :: below, s⟩
      else unvisited nodes (scanNeighbors adj currentNode below neighbors s).1.search =
        unvisited nodes s
  | [], s, _ => by simp [scanNeighbors]
  | nextNode :: neighbors, s, hsub => by
    have hsub' : neighbors ⊆ nodes := fun x hx => hsub (List.mem_cons_of_mem _ hx)
    unfold scanNeighbors
    cases hseen : s.indexMap nextNode with
    | none =>
      have hlt := unvisited_enter_lt (hsub List.mem_cons_self) hseen
      simp only [if_true, workMeasure, List.length_cons]
      omega
    | some i =>
      by_cases hon : nextNode ∈ s.onStack
      · have ih := scanNeighbors_measure adj currentNode below neighbors (s.lower currentNode i) hsub'
        have hsame : unvisited nodes (s.lower currentNode i) = unvisited nodes s := rfl
        simp only [if_pos hon]
        simpa only [workMeasure, hsame, List.length_cons] using ih
      · simp only [if_neg hon]
        exact scanNeighbors_measure adj currentNode below neighbors s hsub'

/-- **One pass of the inner loop** raises nothing, takes steps of the machine and lowers the
measure. -/
theorem processTop_steps {c : Config String} (h : Inv adj c.frames c.search)
    (hin : Within nodes c.frames c.search) (hne : c.frames ≠ []) :
    ∃ c', processTop adj c = some c' ∧ Steps adj sortedNames nodes c c' ∧
      workMeasure nodes c' < workMeasure nodes c := by
  obtain ⟨frames, s⟩ := c
  cases frames with
  | nil => exact absurd rfl hne
  | cons f below =>
    obtain ⟨currentNode, neighbors⟩ := f
    obtain ⟨hsteps, hend⟩ :=
      scanNeighbors_steps adj nodes currentNode below neighbors s
    have hmeasure := scanNeighbors_measure adj currentNode below neighbors s
      (hin.rest (currentNode, neighbors) List.mem_cons_self)
    unfold processTop
    simp only
    generalize scanNeighbors adj currentNode below neighbors s = r at hsteps hend hmeasure
    obtain ⟨⟨frames', s'⟩, advanced⟩ := r
    cases advanced with
    | true => exact ⟨_, rfl, hsteps, hmeasure⟩
    | false =>
      obtain rfl : frames' = (currentNode, []) :: below := hend rfl
      have h' := h.steps sortedNames_perm hsteps
      obtain ⟨t, ht⟩ := h'.close_isSome sortedNames
      refine ⟨⟨below, t.passUp currentNode below⟩, by simp [ht], hsteps.tail (.close ht), ?_⟩
      have hsame : unvisited nodes (t.passUp currentNode below) = unvisited nodes s' :=
        unvisited_congr ((Search.indexMap_passUp _ _ _).trans (Search.indexMap_close ht))
      simp only [Bool.false_eq_true, if_false] at hmeasure
      simp only [workMeasure, hsame, hmeasure, List.length_cons]
      omega

/-- **One pass of the outer loop** is a visit, given enough fuel for the nodes of the graph. -/
theorem visitStart_visits (hadj : ∀ v ∈ nodes, adj v ⊆ nodes) :
    Visits adj sortedNames nodes (visitStart adj (2 * nodes.length + 1)) := by
  intro s v h hin hv
  refine ⟨fun hseen => by simp [visitStart, Option.isSome_iff_ne_none, hseen], fun hfresh => ?_⟩
  have hstart : Steps adj sortedNames nodes ⟨[], s⟩ ⟨[(v, adj v)], s.enter v⟩ :=
    .single (.start hfresh hv)
  have hbound : unvisited nodes (s.enter v) ≤ nodes.length := List.countP_le_length
  obtain ⟨⟨frames, t⟩, ht, hsteps, hdone⟩ := whileLoop_spec
    (fun c : Config String => !c.frames.isEmpty) (processTop adj)
    (fun c => Steps adj sortedNames nodes ⟨[(v, adj v)], s.enter v⟩ c) (workMeasure nodes)
    (fun c hc hcond => by
      have hall := hstart.trans hc
      obtain ⟨c', hc', hsteps, hlt⟩ := processTop_steps (h.steps sortedNames_perm hall)
        (hin.steps hadj hall) (by simpa using hcond)
      exact ⟨c', hc', hc.trans hsteps, hlt⟩)
    (2 * nodes.length + 1) ⟨[(v, adj v)], s.enter v⟩ .refl
    (by simp only [workMeasure, List.length_singleton]; omega)
  obtain rfl : frames = [] := by simpa using hdone
  exact ⟨t, by simp [visitStart, hfresh, ht], hsteps⟩

/-! ## The components of a function map -/

/-- The graph of a function map has an edge for each callee that is itself in the map. -/
theorem FuncMap.mem_adjacency {funcMap : FuncMap} {f g : String} :
    g ∈ funcMap.adjacency f ↔ funcMap.Callee f g := by
  simp [FuncMap.adjacency, FuncMap.Callee]

/-- Reaching along these edges is calling, directly or through others. -/
theorem FuncMap.reach_adjacency {funcMap : FuncMap} {f g : String} :
    Reach funcMap.adjacency f g ↔ funcMap.Reaches f g := by
  have heq : (fun u v => v ∈ funcMap.adjacency u) = funcMap.Callee :=
    funext fun u => funext fun v => propext FuncMap.mem_adjacency
  rw [Reach, heq, FuncMap.Reaches]

/-- **The mutually recursive groups of a function map**: every function in exactly one group, two
functions together exactly when each reaches the other, names in order, and no group depending on a
later one. -/
structure FuncMap.Groups (funcMap : FuncMap) (sccs : List (List String)) : Prop where
  partition : sccs.flatten.Perm funcMap.keys
  nonempty : ∀ group ∈ sccs, group ≠ []
  linked : ∀ group ∈ sccs, ∀ f ∈ group, ∀ g,
    g ∈ group ↔ funcMap.Reaches f g ∧ funcMap.Reaches g f
  sorted : ∀ group ∈ sccs, group.Pairwise (· < ·)
  calleesFirst : ∀ earlier group later, sccs = earlier ++ group :: later →
    ∀ f ∈ group, ∀ g, funcMap.Callee f g → g ∈ group ∨ g ∈ earlier.flatten

/-- `findStronglyConnectedComponents` ends without raising and returns a component order of the
graph it builds, each component sorted. -/
theorem findStronglyConnectedComponents_spec (funcMap : FuncMap) :
    ∃ sccs, findStronglyConnectedComponents funcMap = some sccs ∧
      SccOrder funcMap.adjacency funcMap.keys sccs ∧ ∀ C ∈ sccs, ∃ l, C = sortedNames l := by
  have hadj : ∀ v ∈ funcMap.keys, funcMap.adjacency v ⊆ funcMap.keys :=
    fun v _ w hw => (FuncMap.mem_adjacency.mp hw).2
  obtain ⟨s, hs, hscc, hsorted⟩ :=
    (visitStart_visits hadj).sccOrder sortedNames_perm hadj fun _ => Iff.rfl
  exact ⟨s.components, by simp [findStronglyConnectedComponents, hs], hscc, hsorted⟩

/-- A component order with sorted members is the groups of the map. -/
theorem FuncMap.Groups.of_sccOrder {funcMap : FuncMap} {sccs : List (List String)}
    (h : SccOrder funcMap.adjacency funcMap.keys sccs) (hsorted : ∀ C ∈ sccs, ∃ l, C = sortedNames l) :
    funcMap.Groups sccs where
  partition := (List.perm_ext_iff_of_nodup h.nodup funcMap.keys_nodup).mpr h.cover
  nonempty := h.nonempty
  linked C hC f hf g := by
    rw [h.mem_iff_linked hC hf, Linked, FuncMap.reach_adjacency, FuncMap.reach_adjacency]
  sorted C hC := by
    obtain ⟨l, rfl⟩ := hsorted C hC
    have hle := List.pairwise_insertionSort (· ≤ ·) l
    exact (hle.and (h.nodup_of_mem hC)).imp fun hab => lt_of_le_of_ne hab.1 hab.2
  calleesFirst earlier C later heq f hf g hg :=
    h.calleesFirst earlier C later heq f hf g (FuncMap.mem_adjacency.mpr hg)

/-- **`findStronglyConnectedComponents` returns the groups of every function map**: each function is in one of them,
two are together exactly if each leads to the other, and no group depends on a later one. The loop with its explicit
stack comes to its end for every map. -/
theorem findStronglyConnectedComponents_groups (funcMap : FuncMap) :
    ∃ sccs, findStronglyConnectedComponents funcMap = some sccs ∧ funcMap.Groups sccs := by
  obtain ⟨sccs, hsccs, hscc, hsorted⟩ := findStronglyConnectedComponents_spec funcMap
  exact ⟨sccs, hsccs, .of_sccOrder hscc hsorted⟩

-- `b` and `c` call each other, `a` calls both and itself, and `puts` is outside the map
example : findStronglyConnectedComponents
    (.ofEdges [("a", ["b", "a", "puts", "c"]), ("c", ["b", "b"]), ("b", ["c"])] (by decide)) =
      some [["b", "c"], ["a"]] := by decide +kernel

end Assure
