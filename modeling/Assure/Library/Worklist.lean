import Assure.Library.Digraph
import Assure.Library.Loop
import Mathlib.Algebra.BigOperators.Group.Finset.Basic

/-!
# Reachability by a worklist

A queue of nodes to visit and a set of visited ones. A pass takes a node off the queue and, if it is
new, queues its neighbours that were not visited. The loop ends, for a new node brings no more
entries than it has edges (`pending` falls), with everything reachable from the roots
(`worklist_spec`).
-/

namespace Assure.Library

open scoped BigOperators

variable {α : Type*} [DecidableEq α] {adj : α → List α}

/-- The variables of the loop. -/
structure Worklist (α : Type*) where
  queue : List α
  visited : Finset α

/-- **One pass of the loop.** -/
def Worklist.pass (adj : α → List α) (s : Worklist α) : Option (Worklist α) :=
  match s.queue with
  | [] => none
  | current :: rest =>
    if current ∈ s.visited then some { s with queue := rest }
    else
      let visited := insert current s.visited
      some ⟨rest ++ (adj current).filter (· ∉ visited), visited⟩

/-- **The invariant**: everything seen is reachable, every root was seen, and so was every neighbour
of a visited node. -/
structure Worklist.Inv (adj : α → List α) (roots : List α) (s : Worklist α) : Prop where
  sound : ∀ v, v ∈ s.visited ∨ v ∈ s.queue → ∃ r ∈ roots, Reach adj r v
  roots : ∀ r ∈ roots, r ∈ s.visited ∨ r ∈ s.queue
  closed : ∀ u ∈ s.visited, ∀ v ∈ adj u, v ∈ s.visited ∨ v ∈ s.queue

/-- The entries there can still be: those on the queue, and the edges of the nodes not visited. -/
def Worklist.pending (adj : α → List α) (nodes : Finset α) (s : Worklist α) : Nat :=
  s.queue.length + ∑ v ∈ nodes \ s.visited, (adj v).length

omit [DecidableEq α] in
/-- Before the first pass nothing is visited, and the roots are queued. -/
theorem Worklist.Inv.start (roots : List α) : Worklist.Inv adj roots ⟨roots, ∅⟩ where
  sound v hv := ⟨v, by simpa using hv, .refl v⟩
  roots _ hr := .inr hr
  closed _ hu := by simp at hu

omit [DecidableEq α] in
/-- The order of the queue does not matter to the invariant. -/
theorem Worklist.Inv.perm {roots queue queue' : List α} {visited : Finset α}
    (h : Worklist.Inv adj roots ⟨queue, visited⟩) (hperm : queue'.Perm queue) :
    Worklist.Inv adj roots ⟨queue', visited⟩ where
  sound v hv := h.sound v (hv.imp_right hperm.mem_iff.mp)
  roots r hr := (h.roots r hr).imp_right hperm.mem_iff.mpr
  closed u hu v hv := (h.closed u hu v hv).imp_right hperm.mem_iff.mpr

/-- How much is pending does not depend on the order of the queue. -/
theorem Worklist.pending_perm (adj : α → List α) (nodes : Finset α) {queue queue' : List α}
    (visited : Finset α) (hperm : queue'.Perm queue) :
    Worklist.pending adj nodes ⟨queue', visited⟩ = Worklist.pending adj nodes ⟨queue, visited⟩ := by
  rw [pending, pending, hperm.length_eq]

/-- **A pass keeps the invariant.** -/
theorem Worklist.Inv.pass {roots : List α} {s s' : Worklist α} (h : s.Inv adj roots)
    (hpass : s.pass adj = some s') : s'.Inv adj roots := by
  unfold Worklist.pass at hpass
  split at hpass
  · cases hpass
  · rename_i current rest hqueue
    have hcurrent : current ∈ s.queue := by simp [hqueue]
    have hrest : ∀ v ∈ rest, v ∈ s.queue := fun v hv => by simp [hqueue, hv]
    have hsplit : ∀ v, v ∈ s.queue → v = current ∨ v ∈ rest := fun v hv => by
      simpa [hqueue] using hv
    split at hpass
    · rename_i hvisited
      cases hpass
      have hseen : ∀ v, v ∈ s.visited ∨ v ∈ s.queue → v ∈ s.visited ∨ v ∈ rest := by
        rintro v (hv | hv)
        · exact .inl hv
        · rcases hsplit v hv with rfl | hv
          · exact .inl hvisited
          · exact .inr hv
      exact ⟨fun v hv => h.sound v (hv.imp_right (hrest v)), fun r hr => hseen r (h.roots r hr),
        fun u hu v hv => hseen v (h.closed u hu v hv)⟩
    · cases hpass
      have hseen : ∀ v, v ∈ s.visited ∨ v ∈ s.queue → v ∈ insert current s.visited ∨
          v ∈ rest ++ (adj current).filter (· ∉ insert current s.visited) := by
        rintro v (hv | hv)
        · exact .inl (Finset.mem_insert_of_mem hv)
        · rcases hsplit v hv with rfl | hv
          · exact .inl (Finset.mem_insert_self v _)
          · exact .inr (List.mem_append_left _ hv)
      refine ⟨fun v hv => ?_, fun r hr => hseen r (h.roots r hr), fun u hu v hv => ?_⟩
      · simp only [Finset.mem_insert, List.mem_append, List.mem_filter] at hv
        rcases hv with (rfl | hv) | hv | ⟨hv, -⟩
        · exact h.sound v (.inr hcurrent)
        · exact h.sound v (.inl hv)
        · exact h.sound v (.inr (hrest v hv))
        · obtain ⟨r, hr, hreach⟩ := h.sound current (.inr hcurrent)
          exact ⟨r, hr, hreach.trans (.edge hv)⟩
      · rcases Finset.mem_insert.mp hu with rfl | hu
        · by_cases hnew : v ∈ insert u s.visited
          · exact .inl hnew
          · exact .inr (List.mem_append_right _ (List.mem_filter.mpr ⟨hv, by simpa using hnew⟩))
        · exact hseen v (h.closed u hu v hv)

/-- What is visited stays so. -/
theorem Worklist.pass_visited {s s' : Worklist α} (h : s.pass adj = some s') : s.visited ⊆ s'.visited := by
  unfold Worklist.pass at h
  split at h
  · cases h
  · split at h
    · cases h
      exact Finset.Subset.refl _
    · cases h
      exact Finset.subset_insert _ _

/-- **A pass lowers the measure**, as long as the queue stays inside the graph. -/
theorem Worklist.pass_pending (adj : α → List α) (nodes : Finset α) {s : Worklist α} (hne : s.queue ≠ [])
    (hsub : ∀ v ∈ s.queue, v ∈ nodes) :
    ∃ s', s.pass adj = some s' ∧ s'.pending adj nodes < s.pending adj nodes := by
  obtain ⟨queue, visited⟩ := s
  cases queue with
  | nil => exact absurd rfl hne
  | cons current rest =>
    unfold Worklist.pass
    by_cases hvisited : current ∈ visited
    · exact ⟨⟨rest, visited⟩, by simp [hvisited], by simp [pending]⟩
    · refine ⟨_, by simp only [if_neg hvisited]; rfl, ?_⟩
      have hmem : current ∈ nodes \ visited :=
        Finset.mem_sdiff.mpr ⟨hsub current List.mem_cons_self, hvisited⟩
      have herase : nodes \ insert current visited = (nodes \ visited).erase current := by
        ext v
        simp only [Finset.mem_sdiff, Finset.mem_insert, Finset.mem_erase]
        tauto
      have hsum := Finset.sum_erase_add (nodes \ visited) (fun v => (adj v).length) hmem
      have hfilter := List.length_filter_le (· ∉ insert current visited) (adj current)
      simp only [pending, herase, List.length_append, List.length_cons]
      omega

/-- **The loop visits what is reachable from the roots**, and ends, in whatever order it takes the
entries. -/
theorem worklist_spec_perm (adj : α → List α) (step : Worklist α → Option (Worklist α))
    (hstep : ∀ s : Worklist α, s.queue ≠ [] → ∃ queue s' w, queue.Perm s.queue ∧
      Worklist.pass adj ⟨queue, s.visited⟩ = some w ∧ step s = some s' ∧
        s'.visited = w.visited ∧ s'.queue.Perm w.queue)
    (nodes : Finset α) (hadj : ∀ v ∈ nodes, ∀ w ∈ adj v, w ∈ nodes) (roots : List α)
    (hroots : ∀ r ∈ roots, r ∈ nodes) :
    ∃ s, whileLoop (fun s => !s.queue.isEmpty) step
        (roots.length + ∑ v ∈ nodes, (adj v).length) ⟨roots, ∅⟩ = some s ∧
      ∀ v, v ∈ s.visited ↔ ∃ r ∈ roots, Reach adj r v := by
  have hwithin : ∀ r ∈ roots, ∀ v, Reach adj r v → v ∈ nodes := fun r hr v hreach =>
    hreach.closed (P := (· ∈ nodes)) hadj (hroots r hr)
  obtain ⟨s, hs, hInv, hdone⟩ := whileLoop_spec
    (fun s : Worklist α => !s.queue.isEmpty) step
    (Worklist.Inv adj roots) (Worklist.pending adj nodes)
    (fun s hInv hcond => by
      have hne : s.queue ≠ [] := by simpa using hcond
      obtain ⟨queue, s', w, hperm, hpass, hs', hvisited, hqueue⟩ := hstep s hne
      have hInv' : Worklist.Inv adj roots ⟨queue, s.visited⟩ := Worklist.Inv.perm hInv hperm
      obtain ⟨w', hw', hlt⟩ := Worklist.pass_pending adj nodes (s := ⟨queue, s.visited⟩)
        (fun hnil => hne (List.perm_nil.mp (hnil ▸ hperm.symm))) fun v hv => by
          obtain ⟨r, hr, hreach⟩ := hInv'.sound v (.inr hv)
          exact hwithin r hr v hreach
      obtain rfl := Option.some.inj (hpass.symm.trans hw')
      obtain ⟨queue', visited'⟩ := s'
      obtain rfl : visited' = w.visited := hvisited
      have hs : Worklist.pending adj nodes ⟨queue, s.visited⟩ = s.pending adj nodes :=
        Worklist.pending_perm adj nodes s.visited hperm
      have hw : Worklist.pending adj nodes ⟨queue', w.visited⟩ = w.pending adj nodes :=
        Worklist.pending_perm adj nodes w.visited hqueue
      rw [hs, ← hw] at hlt
      exact ⟨_, hs', (hInv'.pass hpass).perm hqueue, hlt⟩)
    (roots.length + ∑ v ∈ nodes, (adj v).length) ⟨roots, ∅⟩ (.start roots) (by
      simp [Worklist.pending])
  obtain ⟨queue, visited⟩ := s
  obtain rfl : queue = [] := by simpa using hdone
  refine ⟨_, hs, fun v => ⟨fun hv => hInv.sound v (.inl hv), ?_⟩⟩
  rintro ⟨r, hr, hreach⟩
  exact hreach.closed (P := (· ∈ visited)) (fun u hu w hw => by simpa using hInv.closed u hu w hw)
    (by simpa using hInv.roots r hr)

/-- The loop that takes the first entry of the queue visits exactly what the roots reach, and ends
within as many passes as there are roots and edges. -/
theorem worklist_spec (adj : α → List α) (nodes : Finset α)
    (hadj : ∀ v ∈ nodes, ∀ w ∈ adj v, w ∈ nodes) (roots : List α) (hroots : ∀ r ∈ roots, r ∈ nodes) :
    ∃ s, whileLoop (fun s => !s.queue.isEmpty) (Worklist.pass adj)
        (roots.length + ∑ v ∈ nodes, (adj v).length) ⟨roots, ∅⟩ = some s ∧
      ∀ v, v ∈ s.visited ↔ ∃ r ∈ roots, Reach adj r v := by
  refine worklist_spec_perm adj (Worklist.pass adj) (fun s hne => ?_) nodes hadj roots hroots
  obtain ⟨current, rest, hqueue⟩ := List.exists_cons_of_ne_nil hne
  obtain ⟨w, hw⟩ : ∃ w, Worklist.pass adj s = some w := by
    unfold Worklist.pass
    rw [hqueue]
    dsimp only
    split
    · exact ⟨_, rfl⟩
    · exact ⟨_, rfl⟩
  exact ⟨s.queue, w, w, .refl _, hw, hw, rfl, .refl _⟩

/-- **One pass of a loop that takes the newest entry.** -/
def Worklist.popPass (adj : α → List α) (s : Worklist α) : Option (Worklist α) :=
  match s.queue.getLast? with
  | none => none
  | some current =>
    let rest := s.queue.dropLast
    if current ∈ s.visited then some { s with queue := rest }
    else
      let visited := insert current s.visited
      some ⟨rest ++ (adj current).filter (· ∉ visited), visited⟩

/-- The loop that takes the last entry visits the same and ends as soon. -/
theorem worklist_spec_pop (adj : α → List α) (nodes : Finset α)
    (hadj : ∀ v ∈ nodes, ∀ w ∈ adj v, w ∈ nodes) (roots : List α) (hroots : ∀ r ∈ roots, r ∈ nodes) :
    ∃ s, whileLoop (fun s => !s.queue.isEmpty) (Worklist.popPass adj)
        (roots.length + ∑ v ∈ nodes, (adj v).length) ⟨roots, ∅⟩ = some s ∧
      ∀ v, v ∈ s.visited ↔ ∃ r ∈ roots, Reach adj r v := by
  refine worklist_spec_perm adj (Worklist.popPass adj) (fun s hne => ?_) nodes hadj roots hroots
  obtain ⟨rest, current, hqueue⟩ := List.eq_nil_or_concat s.queue |>.resolve_left hne
  have hperm : (current :: rest).Perm s.queue := by
    rw [hqueue, List.concat_eq_append]
    exact List.perm_append_singleton current rest |>.symm
  have hlast : s.queue.getLast? = some current := by rw [hqueue, List.concat_eq_append, List.getLast?_concat]
  have hinit : s.queue.dropLast = rest := by rw [hqueue, List.concat_eq_append, List.dropLast_concat]
  unfold Worklist.popPass Worklist.pass
  rw [hlast, hinit]
  by_cases hvisited : current ∈ s.visited
  · exact ⟨_, _, _, hperm, if_pos hvisited, if_pos hvisited, rfl, .refl _⟩
  · exact ⟨_, _, _, hperm, if_neg hvisited, if_neg hvisited, rfl, .refl _⟩

end Assure.Library
