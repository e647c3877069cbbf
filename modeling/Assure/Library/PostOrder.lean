import Assure.Library.Digraph
import Mathlib.Data.Finset.Card

/-!
# Depth-first post-order

`visit` goes to a node, then to its neighbours one after the other, and writes the node down when it has
come back from all of them; a node that was entered is not entered again. The nodes that were entered but
not written down are those of the calls that are open, and they all reach the node of the innermost call.
So a neighbour that is not written down before a node reaches that node.
-/

namespace Assure.Library

open Relation

variable {α : Type*} [DecidableEq α]

/-- What has been written down, and what has been entered. -/
structure PostOrder (α : Type*) where
  order : List α
  seen : Finset α

/-- **A visit.** `adj` answers nothing for what is not a node. -/
def visit (adj : α → Option (List α)) : Nat → α → PostOrder α → Option (PostOrder α)
  | 0, _, _ => none
  | fuel + 1, v, s =>
    if v ∈ s.seen then some s
    else
      (adj v).bind fun neighbours =>
        (neighbours.foldlM (fun s w => if w = v then some s else visit adj fuel w s)
          ⟨s.order, insert v s.seen⟩).map fun s => ⟨s.order ++ [v], s.seen⟩

section

variable {adj : α → Option (List α)} {nodes : Finset α}

/-- The neighbours of a node. -/
def neighbours (adj : α → Option (List α)) (v : α) : List α := (adj v).getD []

/-- What a visit to `roots` does: it enters the nodes `new` and writes them down. -/
structure Visited (adj : α → Option (List α)) (roots : List α) (s s' : PostOrder α) (new : List α) : Prop where
  order : s'.order = s.order ++ new
  seen : ∀ x, x ∈ s'.seen ↔ x ∈ s.seen ∨ x ∈ new
  fresh : ∀ x ∈ new, x ∉ s.seen
  nodup : new.Nodup
  reached : ∀ x ∈ new, ∃ r ∈ roots, Reach (neighbours adj) r x
  closed : ∀ x ∈ new, ∀ w ∈ neighbours adj x, w ∈ s'.seen
  rootsSeen : ∀ r ∈ roots, r ∈ s'.seen
  neighboursFirst : ∀ before u after, new = before ++ u :: after → ∀ w ∈ neighbours adj u,
    w ∈ s.order ∨ w ∈ before ∨ Reach (neighbours adj) w u

omit [DecidableEq α] in
/-- Nothing to visit. -/
theorem Visited.refl {roots : List α} {s : PostOrder α} (h : ∀ r ∈ roots, r ∈ s.seen) :
    Visited adj roots s s [] where
  order := (List.append_nil _).symm
  seen := by simp
  fresh := by simp
  nodup := List.nodup_nil
  reached := by simp
  closed := by simp
  rootsSeen := h
  neighboursFirst := by simp

omit [DecidableEq α] in
/-- One visit after another. -/
theorem Visited.trans {r : α} {roots new new' : List α} {s s' s'' : PostOrder α}
    (h : Visited adj [r] s s' new) (h' : Visited adj roots s' s'' new') :
    Visited adj (r :: roots) s s'' (new ++ new') where
  order := by rw [h'.order, h.order, List.append_assoc]
  seen x := by rw [h'.seen, h.seen, List.mem_append, or_assoc]
  fresh x hx := by
    rcases List.mem_append.mp hx with hx | hx
    · exact h.fresh x hx
    · exact fun hs => h'.fresh x hx ((h.seen x).mpr (.inl hs))
  nodup := by
    refine List.Nodup.append h.nodup h'.nodup ?_
    intro x hx hx'
    exact h'.fresh x hx' ((h.seen x).mpr (.inr hx))
  reached x hx := by
    rcases List.mem_append.mp hx with hx | hx
    · obtain ⟨q, hq, hreach⟩ := h.reached x hx
      exact ⟨r, List.mem_cons_self, List.mem_singleton.mp hq ▸ hreach⟩
    · obtain ⟨q, hq, hreach⟩ := h'.reached x hx
      exact ⟨q, List.mem_cons_of_mem r hq, hreach⟩
  closed x hx w hw := by
    rcases List.mem_append.mp hx with hx | hx
    · exact (h'.seen w).mpr (.inl (h.closed x hx w hw))
    · exact h'.closed x hx w hw
  rootsSeen q hq := by
    rcases List.mem_cons.mp hq with rfl | hq
    · exact (h'.seen q).mpr (.inl (h.rootsSeen q List.mem_cons_self))
    · exact h'.rootsSeen q hq
  neighboursFirst before u after hsplit w hw := by
    rcases List.append_eq_append_iff.mp hsplit with ⟨rest, rfl, hrest⟩ | ⟨rest, rfl, hrest⟩
    · rcases h'.neighboursFirst rest u after hrest w hw with hs | hin | hreach
      · rw [h.order] at hs
        rcases List.mem_append.mp hs with hs | hs
        · exact .inl hs
        · exact .inr (.inl (List.mem_append_left rest hs))
      · exact .inr (.inl (List.mem_append_right _ hin))
      · exact .inr (.inr hreach)
    · cases rest with
      | nil =>
        have hstart : new' = [] ++ u :: after := by simpa using hrest.symm
        rcases h'.neighboursFirst [] u after hstart w hw with hs | hin | hreach
        · rw [h.order, List.append_nil] at hs
          rcases List.mem_append.mp hs with hs | hs
          · exact .inl hs
          · exact .inr (.inl hs)
        · cases hin
        · exact .inr (.inr hreach)
      | cons x rest =>
        obtain ⟨rfl, -⟩ := List.cons.inj hrest
        exact h.neighboursFirst before u rest rfl w hw

/-- The nodes that were not entered. -/
def unentered (nodes : Finset α) (s : PostOrder α) : Nat := (nodes \ s.seen).card

/-- A visit never makes the vertices that are still to be entered more. -/
theorem Visited.unentered_le {roots new : List α} {s s' : PostOrder α} (h : Visited adj roots s s' new) :
    unentered nodes s' ≤ unentered nodes s := by
  refine Finset.card_le_card fun x hx => ?_
  obtain ⟨hnode, hnot⟩ := Finset.mem_sdiff.mp hx
  exact Finset.mem_sdiff.mpr ⟨hnode, fun hs => hnot ((h.seen x).mpr (.inl hs))⟩

/-- Entering a vertex makes them fewer, which is why the search ends. -/
theorem unentered_insert {v : α} {s : PostOrder α} (hv : v ∈ nodes) (hnew : v ∉ s.seen) :
    unentered nodes ⟨s.order, insert v s.seen⟩ < unentered nodes s := by
  refine Finset.card_lt_card (Finset.ssubset_iff_of_subset ?_ |>.mpr ⟨v, ?_, ?_⟩)
  · intro x hx
    obtain ⟨hnode, hnot⟩ := Finset.mem_sdiff.mp hx
    exact Finset.mem_sdiff.mpr ⟨hnode, fun hs => hnot (Finset.mem_insert_of_mem hs)⟩
  · exact Finset.mem_sdiff.mpr ⟨hv, hnew⟩
  · exact fun hx => (Finset.mem_sdiff.mp hx).2 (Finset.mem_insert_self v _)

/-- The nodes of the open calls reach a node. -/
def OpenReach (adj : α → Option (List α)) (s : PostOrder α) (v : α) : Prop :=
  ∀ x ∈ s.seen, x ∉ s.order → Reach (neighbours adj) x v

omit [DecidableEq α] in
/-- The open calls are the same after a visit. -/
theorem Visited.openReach {roots new : List α} {s s' : PostOrder α} (h : Visited adj roots s s' new) {v : α}
    (hopen : OpenReach adj s v) : OpenReach adj s' v := by
  intro x hx hnot
  rw [h.order] at hnot
  rcases (h.seen x).mp hx with hs | hin
  · exact hopen x hs fun hord => hnot (List.mem_append_left _ hord)
  · exact absurd (List.mem_append_right _ hin) hnot

/-- Writing a node down when its neighbours have been visited. -/
theorem Visited.finish {v : α} {s s' : PostOrder α} {new : List α} (hadj : (neighbours adj v).filter (· ≠ v) = roots)
    (hnew : v ∉ s.seen) (hopen : OpenReach adj s v)
    (h : Visited adj roots ⟨s.order, insert v s.seen⟩ s' new) :
    Visited adj [v] s ⟨s'.order ++ [v], s'.seen⟩ (new ++ [v]) := by
  have hroot : ∀ r ∈ roots, r ∈ neighbours adj v := by
    intro r hr
    rw [← hadj] at hr
    exact (List.mem_filter.mp hr).1
  have hself : v ∈ s'.seen := (h.seen v).mpr (.inl (Finset.mem_insert_self v _))
  have hneighbour : ∀ w ∈ neighbours adj v, w ∈ s'.seen := by
    intro w hw
    by_cases hwv : w = v
    · exact hwv ▸ hself
    · refine h.rootsSeen w ?_
      rw [← hadj]
      exact List.mem_filter.mpr ⟨hw, decide_eq_true hwv⟩
  refine ⟨?_, ?_, ?_, ?_, ?_, ?_, ?_, ?_⟩
  · change s'.order ++ [v] = _
    rw [h.order, List.append_assoc]
  · intro x
    change x ∈ s'.seen ↔ _
    rw [h.seen, Finset.mem_insert, List.mem_append, List.mem_singleton]
    tauto
  · intro x hx
    rcases List.mem_append.mp hx with hx | hx
    · exact fun hs => h.fresh x hx (Finset.mem_insert_of_mem hs)
    · exact List.mem_singleton.mp hx ▸ hnew
  · refine List.Nodup.append h.nodup (List.nodup_singleton v) ?_
    rintro x hx hxv
    obtain rfl := List.mem_singleton.mp hxv
    exact h.fresh x hx (Finset.mem_insert_self x _)
  · intro x hx
    refine ⟨v, List.mem_singleton_self v, ?_⟩
    rcases List.mem_append.mp hx with hx | hx
    · obtain ⟨r, hr, hreach⟩ := h.reached x hx
      exact (Reach.edge (hroot r hr)).trans hreach
    · obtain rfl := List.mem_singleton.mp hx
      exact .refl x
  · intro x hx w hw
    rcases List.mem_append.mp hx with hx | hx
    · exact h.closed x hx w hw
    · exact hneighbour w (List.mem_singleton.mp hx ▸ hw)
  · intro r hr
    exact List.mem_singleton.mp hr ▸ hself
  · intro before u after hsplit w hw
    rcases List.eq_nil_or_concat' after with rfl | ⟨rest, b, rfl⟩
    · -- the node itself: a neighbour is written down, or its call is open
      obtain ⟨rfl, hu⟩ := List.append_inj' hsplit rfl
      obtain rfl := (List.cons.inj hu).1
      rcases (h.seen w).mp (hneighbour w hw) with hs | hin
      · rcases Finset.mem_insert.mp hs with rfl | hs
        · exact .inr (.inr (.refl w))
        · by_cases hord : w ∈ s.order
          · exact .inl hord
          · exact .inr (.inr (hopen w hs hord))
      · exact .inr (.inl hin)
    · rw [← List.cons_append, ← List.append_assoc] at hsplit
      obtain ⟨hnew', -⟩ := List.append_inj' hsplit rfl
      exact h.neighboursFirst before u rest hnew' w hw

/-- **Visits to the neighbours**, given what one visit does. -/
theorem foldlM_visited {fuel : Nat} {v : α}
    (hvisit : ∀ w ∈ nodes, ∀ s, OpenReach adj s w → unentered nodes s < fuel →
      ∃ s' new, visit adj fuel w s = some s' ∧ Visited adj [w] s s' new) :
    ∀ (ws : List α) (s : PostOrder α), (∀ w ∈ ws, w ∈ nodes ∧ w ∈ neighbours adj v) → OpenReach adj s v →
      unentered nodes s < fuel →
      ∃ s' new, ws.foldlM (fun s w => if w = v then some s else visit adj fuel w s) s = some s' ∧
        Visited adj (ws.filter (· ≠ v)) s s' new
  | [], s, _, _, _ => ⟨s, [], rfl, .refl (by simp)⟩
  | w :: ws, s, hws, hopen, hfuel => by
    have hrest : ∀ x ∈ ws, x ∈ nodes ∧ x ∈ neighbours adj v := fun x hx => hws x (List.mem_cons_of_mem w hx)
    rw [List.foldlM_cons]
    by_cases hwv : w = v
    · rw [if_pos hwv, List.filter_cons_of_neg (by simp [hwv])]
      exact foldlM_visited hvisit ws s hrest hopen hfuel
    · obtain ⟨hnode, hneighbour⟩ := hws w List.mem_cons_self
      obtain ⟨s', new, hs', hvisited⟩ :=
        hvisit w hnode s (fun x hx hnot => (hopen x hx hnot).trans (.edge hneighbour)) hfuel
      obtain ⟨s'', new', hs'', hvisited'⟩ := foldlM_visited hvisit ws s' hrest (hvisited.openReach hopen)
        (hvisited.unentered_le.trans_lt hfuel)
      refine ⟨s'', new ++ new', ?_, ?_⟩
      · rw [if_neg hwv, hs']
        exact hs''
      · rw [List.filter_cons_of_pos (by simp [hwv])]
        exact hvisited.trans hvisited'

/-- **A visit** comes back and does what a visit does. -/
theorem visit_spec (hnodes : ∀ v ∈ nodes, ∃ ws, adj v = some ws ∧ ∀ w ∈ ws, w ∈ nodes) :
    ∀ (fuel : Nat) (v : α), v ∈ nodes → ∀ s, OpenReach adj s v → unentered nodes s < fuel →
      ∃ s' new, visit adj fuel v s = some s' ∧ Visited adj [v] s s' new := by
  intro fuel
  induction fuel with
  | zero => exact fun _ _ _ _ hfuel => absurd hfuel (Nat.not_lt_zero _)
  | succ fuel ih =>
    intro v hv s hopen hfuel
    by_cases hseen : v ∈ s.seen
    · exact ⟨s, [], if_pos hseen, .refl fun r hr => List.mem_singleton.mp hr ▸ hseen⟩
    · obtain ⟨ws, hws, hin⟩ := hnodes v hv
      have hneighbours : neighbours adj v = ws := by rw [neighbours, hws, Option.getD_some]
      have hopen' : OpenReach adj ⟨s.order, insert v s.seen⟩ v := by
        intro x hx hnot
        rcases Finset.mem_insert.mp hx with rfl | hx
        · exact .refl x
        · exact hopen x hx hnot
      obtain ⟨s', new, hs', hvisited⟩ := foldlM_visited (v := v) ih ws ⟨s.order, insert v s.seen⟩
        (fun w hw => ⟨hin w hw, hneighbours ▸ hw⟩) hopen' (by have := unentered_insert hv hseen; omega)
      refine ⟨⟨s'.order ++ [v], s'.seen⟩, new ++ [v], ?_, hvisited.finish (by rw [hneighbours]) hseen hopen⟩
      rw [visit, if_neg hseen, hws, Option.bind_some, hs', Option.map_some]

/-- **The post-order of roots**, visited one after the other: what they reach, each once, and every neighbour
before its node unless it reaches the node. -/
theorem visit_roots (hnodes : ∀ v ∈ nodes, ∃ ws, adj v = some ws ∧ ∀ w ∈ ws, w ∈ nodes) {roots : List α}
    (hroots : ∀ r ∈ roots, r ∈ nodes) :
    ∃ s, roots.foldlM (fun s r => visit adj (nodes.card + 1) r s) ⟨[], ∅⟩ = some s ∧ s.order.Nodup ∧
      (∀ x, x ∈ s.order ↔ ∃ r ∈ roots, Reach (neighbours adj) r x) ∧
      ∀ before u after, s.order = before ++ u :: after → ∀ w ∈ neighbours adj u,
        w ∈ before ∨ Reach (neighbours adj) w u := by
  -- between the visits of roots no call is open
  have hvisits : ∀ (rs : List α) (s : PostOrder α), (∀ r ∈ rs, r ∈ nodes) → (∀ x ∈ s.seen, x ∈ s.order) →
      ∃ s' new, rs.foldlM (fun s r => visit adj (nodes.card + 1) r s) s = some s' ∧ Visited adj rs s s' new := by
    intro rs
    induction rs with
    | nil => exact fun s _ _ => ⟨s, [], rfl, .refl (by simp)⟩
    | cons r rs ih =>
      intro s hrs hdone
      have hfuel : unentered nodes s < nodes.card + 1 := Nat.lt_succ_of_le (Finset.card_le_card Finset.sdiff_subset)
      obtain ⟨s₁, new, hs₁, h₁⟩ := visit_spec hnodes (nodes.card + 1) r (hrs r List.mem_cons_self) s
        (fun x hx hnot => absurd (hdone x hx) hnot) hfuel
      have hdone₁ : ∀ x ∈ s₁.seen, x ∈ s₁.order := by
        intro x hx
        rw [h₁.order]
        exact List.mem_append.mpr (((h₁.seen x).mp hx).imp_left (hdone x))
      obtain ⟨s', new', hs', h'⟩ := ih s₁ (fun q hq => hrs q (List.mem_cons_of_mem r hq)) hdone₁
      refine ⟨s', new ++ new', ?_, h₁.trans h'⟩
      rw [List.foldlM_cons, hs₁]
      exact hs'
  obtain ⟨s, new, hs, h⟩ := hvisits roots ⟨[], ∅⟩ hroots fun x hx => absurd hx (Finset.notMem_empty x)
  have horder : s.order = new := h.order
  have hseen : ∀ x, x ∈ s.seen ↔ x ∈ new := by simpa using h.seen
  refine ⟨s, hs, horder ▸ h.nodup, fun x => ?_, fun before u after hsplit w hw => ?_⟩
  · rw [horder]
    constructor
    · exact h.reached x
    · rintro ⟨r, hr, hreach⟩
      refine Reach.closed (P := (· ∈ new)) (fun u hu v hv => ?_) hreach ?_
      · exact (hseen v).mp (h.closed u hu v hv)
      · exact (hseen r).mp (h.rootsSeen r hr)
  · rcases h.neighboursFirst before u after (horder ▸ hsplit) w hw with hs | hin
    · cases hs
    · exact hin

/-- **The post-order of a root.** -/
theorem visit_root (hnodes : ∀ v ∈ nodes, ∃ ws, adj v = some ws ∧ ∀ w ∈ ws, w ∈ nodes) {root : α}
    (hroot : root ∈ nodes) :
    ∃ s, visit adj (nodes.card + 1) root ⟨[], ∅⟩ = some s ∧ s.order.Nodup ∧
      (∀ x, x ∈ s.order ↔ Reach (neighbours adj) root x) ∧
      ∀ before u after, s.order = before ++ u :: after → ∀ w ∈ neighbours adj u,
        w ∈ before ∨ Reach (neighbours adj) w u := by
  have hroots : ∀ r ∈ [root], r ∈ nodes := fun r hr => List.mem_singleton.mp hr ▸ hroot
  obtain ⟨s, hs, hnodup, hmem, hfirst⟩ := visit_roots hnodes hroots
  refine ⟨s, ?_, hnodup, fun x => (hmem x).trans (by simp), hfirst⟩
  rw [List.foldlM_cons] at hs
  obtain ⟨s', hs', hdone⟩ := Option.bind_eq_some_iff.mp hs
  obtain rfl := Option.some.inj hdone
  exact hs'

end

end Assure.Library
