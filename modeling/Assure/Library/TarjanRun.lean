import Assure.Library.TarjanInvariant

/-!
# Programs that run Tarjan's search

A program visits its start nodes in some order; a visit to a node not yet entered takes steps of the
machine until no node is open (`Visits`). `Visits.sccOrder` says that such a program returns, raises
nothing, and leaves the strongly connected components of the graph, callees first. A program's own
proof is left with its control flow alone: `unvisited` is the measure for its loops, and
`Within` keeps the search inside the graph.
-/

namespace Assure.Library.Tarjan

open Assure.Library

variable {α : Type*} {adj : α → List α} {emit : List α → List α} {nodes : List α}
  {fs : List (Frame α)} {s s' : Search α}

/-! ## The graph's nodes -/

/-- Everything entered or still to be looked at is a node of the graph. -/
structure Within (nodes : List α) (fs : List (Frame α)) (s : Search α) : Prop where
  entered : ∀ v, s.indexMap v ≠ none → v ∈ nodes
  rest : ∀ f ∈ fs, f.2 ⊆ nodes

/-- Before anything is visited, everything visited is a node. -/
theorem Within.empty : Within nodes [] (Search.empty : Search α) :=
  ⟨by simp [Search.empty], by simp⟩

/-- Striking a neighbour off a frame stays within the graph. -/
theorem Within.strike {v w : α} {ws : List α} (h : Within nodes ((v, w :: ws) :: fs) s) :
    Within nodes ((v, ws) :: fs) s :=
  ⟨h.entered, fun f hf => by
    rcases List.mem_cons.mp hf with rfl | hf
    · exact fun x hx => h.rest (v, w :: ws) List.mem_cons_self (List.mem_cons_of_mem _ hx)
    · exact h.rest f (List.mem_cons_of_mem _ hf)⟩

/-- **A finished search has the graph's components.** -/
theorem Inv.sccOrder (h : Inv adj [] s) (hin : Within nodes [] s)
    (hall : ∀ v ∈ nodes, s.indexMap v ≠ none) : SccOrder adj nodes s.components where
  nonempty := h.nonempty
  nodup := h.nodup
  cover v := by
    have hent := h.entered_iff v
    rw [h.stack_nil] at hent
    simp only [List.not_mem_nil, false_or] at hent
    exact ⟨fun hv => hin.entered v (hent.mpr hv), fun hv => hent.mp (hall v hv)⟩
  strong := h.strong
  calleesFirst := h.calleesFirst

/-- The number of nodes not yet entered. -/
def unvisited (nodes : List α) (s : Search α) : Nat := nodes.countP fun v => (s.indexMap v).isNone

/-- How many nodes are unvisited depends on the indexes alone. -/
theorem unvisited_congr {s s' : Search α} (h : s'.indexMap = s.indexMap) :
    unvisited nodes s' = unvisited nodes s := by simp [unvisited, h]

variable [DecidableEq α]

/-- Closing a node enters none. -/
theorem Search.indexMap_close {v : α} (h : s.close emit v = some s') : s'.indexMap = s.indexMap := by
  unfold Search.close at h
  split at h
  · obtain ⟨p, -, rfl⟩ := Option.map_eq_some_iff.mp h
    rfl
  · cases h
    rfl

/-- Passing a lowlink up leaves the indexes. -/
@[simp] theorem Search.indexMap_passUp (s : Search α) (v : α) (fs : List (Frame α)) :
    (s.passUp v fs).indexMap = s.indexMap := by
  cases fs <;> rfl

/-- Entering a node of the graph stays within it. -/
theorem Within.enter (h : Within nodes fs s) {v : α} (hv : v ∈ nodes) (hadj : adj v ⊆ nodes) :
    Within nodes ((v, adj v) :: fs) (s.enter v) := by
  refine ⟨fun u hu => ?_, fun f hf => ?_⟩
  · by_cases huv : u = v
    · exact huv ▸ hv
    · exact h.entered u (by simpa [Search.enter, huv] using hu)
  · rcases List.mem_cons.mp hf with rfl | hf
    · exact hadj
    · exact h.rest f hf

/-- **A step stays within a graph** whose edges do. -/
theorem Within.step {c c' : Config α} (hadj : ∀ v ∈ nodes, adj v ⊆ nodes)
    (h : Within nodes c.frames c.search) (hstep : Step adj emit nodes c c') :
    Within nodes c'.frames c'.search := by
  cases hstep with
  | start fresh hv => exact h.enter hv (hadj _ hv)
  | tree fresh =>
    have hw := h.rest _ List.mem_cons_self List.mem_cons_self
    exact h.strike.enter hw (hadj _ hw)
  | back => exact ⟨h.entered, h.strike.rest⟩
  | cross => exact h.strike
  | close closed =>
    refine ⟨fun v hv => h.entered v ?_, fun f hf => h.rest f (List.mem_cons_of_mem _ hf)⟩
    rw [Search.indexMap_passUp, Search.indexMap_close closed] at hv
    exact hv

/-- A run visits nodes only. -/
theorem Within.steps {c c' : Config α} (hadj : ∀ v ∈ nodes, adj v ⊆ nodes)
    (h : Within nodes c.frames c.search) (hsteps : Steps adj emit nodes c c') :
    Within nodes c'.frames c'.search := by
  induction hsteps with
  | refl => exact h
  | tail _ hstep ih => exact ih.step hadj hstep

/-- Entering a node of the graph leaves fewer. -/
theorem unvisited_enter_lt {v : α} (hv : v ∈ nodes) (fresh : s.indexMap v = none) :
    unvisited nodes (s.enter v) < unvisited nodes s := by
  obtain ⟨l, r, rfl⟩ := List.append_of_mem hv
  have himp : ∀ u, ((s.enter v).indexMap u).isNone → (s.indexMap u).isNone := by
    intro u hu
    by_cases huv : u = v
    · simp [huv, Search.enter] at hu
    · simpa [Search.enter, huv] using hu
  have hl := List.countP_mono_left (l := l) fun u _ => himp u
  have hr := List.countP_mono_left (l := r) fun u _ => himp u
  have hself : ((s.enter v).indexMap v).isNone = false := by simp [Search.enter]
  simp only [unvisited, List.countP_append, List.countP_cons, hself, fresh, Option.isNone_none,
    if_true, Bool.false_eq_true, if_false]
  omega

/-- What was entered stays entered. -/
theorem Step.entered {c c' : Config α} (hstep : Step adj emit nodes c c') {v : α}
    (hv : c.search.indexMap v ≠ none) : c'.search.indexMap v ≠ none := by
  have henter : ∀ (s : Search α) (w : α), s.indexMap v ≠ none → (s.enter w).indexMap v ≠ none := by
    intro s w hv
    by_cases hvw : v = w
    · simp [hvw, Search.enter]
    · simpa [Search.enter, hvw] using hv
  cases hstep with
  | start => exact henter _ _ hv
  | tree => exact henter _ _ hv
  | back => exact hv
  | cross => exact hv
  | close closed =>
    rw [Search.indexMap_passUp, Search.indexMap_close closed]
    exact hv

/-- What was visited stays so during a run. -/
theorem Steps.entered {c c' : Config α} (hsteps : Steps adj emit nodes c c') {v : α}
    (hv : c.search.indexMap v ≠ none) : c'.search.indexMap v ≠ none := by
  induction hsteps with
  | refl => exact hv
  | tail _ hstep ih => exact hstep.entered ih

/-- Steps never leave more nodes unvisited. -/
theorem Steps.unvisited_le {c c' : Config α} (hsteps : Steps adj emit nodes c c') :
    unvisited nodes c'.search ≤ unvisited nodes c.search := by
  refine List.countP_mono_left fun v _ hv => ?_
  rw [Option.isNone_iff_eq_none] at hv ⊢
  by_contra hne
  exact hsteps.entered hne hv

/-- **A visit of one start node**: nothing where the node was entered before, and otherwise steps of
the machine from its entry until no node is open. -/
def Visits (adj : α → List α) (emit : List α → List α) (nodes : List α)
    (visit : Search α → α → Option (Search α)) : Prop :=
  ∀ s v, Inv adj [] s → Within nodes [] s → v ∈ nodes →
    (s.indexMap v ≠ none → visit s v = some s) ∧
    (s.indexMap v = none → ∃ s', visit s v = some s' ∧
      Steps adj emit nodes ⟨[(v, adj v)], s.enter v⟩ ⟨[], s'⟩)

/-- Visiting a list of start nodes returns, takes steps and enters them all. -/
theorem Visits.foldlM {visit : Search α → α → Option (Search α)}
    (hvisit : Visits adj emit nodes visit) (hemit : ∀ l : List α, (emit l).Perm l)
    (hadj : ∀ v ∈ nodes, adj v ⊆ nodes) :
    ∀ (order : List α) (s : Search α), order ⊆ nodes → Inv adj [] s → Within nodes [] s →
      ∃ s', order.foldlM visit s = some s' ∧ Steps adj emit nodes ⟨[], s⟩ ⟨[], s'⟩ ∧
        ∀ v ∈ order, s'.indexMap v ≠ none
  | [], s, _, _, _ => ⟨s, rfl, .refl, by simp⟩
  | v :: order, s, hsub, h, hin => by
    have hv : v ∈ nodes := hsub List.mem_cons_self
    have hsub' : order ⊆ nodes := fun x hx => hsub (List.mem_cons_of_mem _ hx)
    obtain ⟨hskip, hrun⟩ := hvisit s v h hin hv
    -- the search after the first visit
    obtain ⟨s₁, hs₁, hsteps₁, hnew⟩ : ∃ s₁, visit s v = some s₁ ∧
        Steps adj emit nodes ⟨[], s⟩ ⟨[], s₁⟩ ∧ s₁.indexMap v ≠ none := by
      by_cases hfresh : s.indexMap v = none
      · obtain ⟨s₁, hs₁, hsteps⟩ := hrun hfresh
        exact ⟨s₁, hs₁, .head (.start hfresh hv) hsteps, hsteps.entered (by simp [Search.enter])⟩
      · exact ⟨s, hskip hfresh, .refl, hfresh⟩
    obtain ⟨s', hs', hsteps', hdone⟩ := Visits.foldlM hvisit hemit hadj order s₁ hsub'
      (h.steps hemit hsteps₁) (hin.steps hadj hsteps₁)
    refine ⟨s', ?_, hsteps₁.trans hsteps', fun u hu => ?_⟩
    · rw [List.foldlM_cons, hs₁]
      exact hs'
    · rcases List.mem_cons.mp hu with rfl | hu
      · exact hsteps'.entered hnew
      · exact hdone u hu

/-- Every component was handed out through `emit`. -/
theorem Step.emitted {c c' : Config α} (hstep : Step adj emit nodes c c')
    (h : ∀ C ∈ c.search.components, ∃ l, C = emit l) :
    ∀ C ∈ c'.search.components, ∃ l, C = emit l := by
  cases hstep with
  | start => exact h
  | tree => exact h
  | back => exact h
  | cross => exact h
  | @close s t v fs closed =>
    have hpass : (t.passUp v fs).components = t.components := by cases fs <;> rfl
    show ∀ C ∈ (t.passUp v fs).components, _
    rw [hpass]
    unfold Search.close at closed
    split at closed
    · obtain ⟨p, -, rfl⟩ := Option.map_eq_some_iff.mp closed
      intro C hC
      rcases List.mem_append.mp hC with hC | hC
      · exact h C hC
      · exact ⟨p.1, List.mem_singleton.mp hC⟩
    · cases closed
      exact h

/-- **A program that visits every node finds the strongly connected components**, callees first. -/
theorem Visits.sccOrder {visit : Search α → α → Option (Search α)}
    (hvisit : Visits adj emit nodes visit) (hemit : ∀ l : List α, (emit l).Perm l)
    (hadj : ∀ v ∈ nodes, adj v ⊆ nodes) {order : List α} (horder : ∀ v, v ∈ order ↔ v ∈ nodes) :
    ∃ s, order.foldlM visit Search.empty = some s ∧ SccOrder adj nodes s.components ∧
      ∀ C ∈ s.components, ∃ l, C = emit l := by
  obtain ⟨s, hs, hsteps, hall⟩ := hvisit.foldlM hemit hadj order Search.empty
    (fun v hv => (horder v).mp hv) Inv.empty Within.empty
  have hscc : SccOrder adj nodes s.components :=
    (Inv.empty.steps hemit hsteps).sccOrder (Within.empty.steps hadj hsteps)
      fun v hv => hall v ((horder v).mpr hv)
  refine ⟨s, hs, hscc, ?_⟩
  have hrun : ∀ c : Config α, Steps adj emit nodes ⟨[], Search.empty⟩ c →
      ∀ C ∈ c.search.components, ∃ l, C = emit l := by
    intro c hc
    induction hc with
    | refl => simp [Search.empty]
    | tail _ hstep ih => exact hstep.emitted ih
  exact hrun _ hsteps

end Assure.Library.Tarjan
