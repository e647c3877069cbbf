import Assure.Library.Worklist

/-!
# Searching a graph with a stack

A search keeps the nodes to look at on a stack and a set of those it has seen. It takes the newest node,
skips it if it was seen, stops if it is one that is searched for, and else puts its neighbours on the
stack. It ends, for a node is seen once, and finds something exactly if something can be reached
(`search_eq`).
-/

namespace Assure.Library

open scoped BigOperators

variable {α : Type*} [DecidableEq α]

/-- The stack and the nodes seen, and whether the search has found something. -/
structure StackSearch (α : Type*) where
  stack : List α
  seen : Finset α
  found : Bool

namespace StackSearch

/-- **One pass of the search.** -/
def pass (adj : α → List α) (p : α → Bool) (s : StackSearch α) : Option (StackSearch α) :=
  match s.stack with
  | [] => none
  | current :: rest =>
    if current ∈ s.seen then some { s with stack := rest }
    else if p current then some ⟨rest, insert current s.seen, true⟩
    else some ⟨(adj current).reverse ++ rest, insert current s.seen, s.found⟩

/-- **The search from a root**: whether it finds something, if it ends within the fuel. -/
def search (adj : α → List α) (p : α → Bool) (fuel : Nat) (root : α) : Option Bool :=
  (whileLoop (fun s => !s.stack.isEmpty && !s.found) (pass adj p) fuel ⟨[root], ∅, false⟩).map found

/-- **The invariant**: only what can be reached is looked at, what is searched for is not passed over, and
what can be reached is seen or behind the stack. -/
structure Inv (adj : α → List α) (p : α → Bool) (root : α) (s : StackSearch α) : Prop where
  sound : ∀ v, v ∈ s.seen ∨ v ∈ s.stack → Reach adj root v
  start : root ∈ s.seen ∨ root ∈ s.stack
  found : s.found = true → ∃ v, Reach adj root v ∧ p v = true
  missed : s.found = false → ∀ u ∈ s.seen, p u = false ∧ ∀ v ∈ adj u, v ∈ s.seen ∨ v ∈ s.stack

/-- The entries the stack can still get. -/
def pending (adj : α → List α) (nodes : Finset α) (s : StackSearch α) : Nat :=
  s.stack.length + ∑ v ∈ nodes \ s.seen, (adj v).length

variable {adj : α → List α} {p : α → Bool} {root : α}

/-- **A pass keeps the invariant and lowers the measure.** -/
theorem Inv.pass {nodes : Finset α} {s : StackSearch α} (h : s.Inv adj p root)
    (hnodes : ∀ v, Reach adj root v → v ∈ nodes) (hne : s.stack ≠ []) (hfound : s.found = false) :
    ∃ s', s.pass adj p = some s' ∧ s'.Inv adj p root ∧ s'.pending adj nodes < s.pending adj nodes := by
  obtain ⟨stack, seen, found⟩ := s
  obtain rfl : found = false := hfound
  cases stack with
  | nil => exact absurd rfl hne
  | cons current rest =>
    have hcurrent : Reach adj root current := h.sound current (.inr List.mem_cons_self)
    have hmissed := h.missed rfl
    by_cases hseen : current ∈ seen
    · refine ⟨⟨rest, seen, false⟩, by simp [StackSearch.pass, hseen], ?_, by simp [pending]⟩
      have hskip : ∀ v, v ∈ seen ∨ v ∈ current :: rest → v ∈ seen ∨ v ∈ rest := by
        intro v hv
        rcases hv with hv | hv
        · exact .inl hv
        · rcases List.mem_cons.mp hv with rfl | hv
          · exact .inl hseen
          · exact .inr hv
      exact
        { sound := fun v hv => h.sound v (hv.imp_right (List.mem_cons_of_mem _))
          start := hskip _ h.start
          found := h.found
          missed := fun _ u hu => ⟨(hmissed u hu).1, fun v hv => hskip v ((hmissed u hu).2 v hv)⟩ }
    · have hmem : current ∈ nodes \ seen := Finset.mem_sdiff.mpr ⟨hnodes _ hcurrent, hseen⟩
      have herase : nodes \ insert current seen = (nodes \ seen).erase current := by
        ext v
        simp only [Finset.mem_sdiff, Finset.mem_insert, Finset.mem_erase]
        tauto
      have hsum := Finset.sum_erase_add (nodes \ seen) (fun v => (adj v).length) hmem
      by_cases hp : p current = true
      · refine ⟨⟨rest, insert current seen, true⟩, by simp [StackSearch.pass, hseen, hp], ?_, ?_⟩
        · refine ⟨?_, ?_, fun _ => ⟨current, hcurrent, hp⟩, fun h => nomatch h⟩
          · intro v hv
            rcases hv with hv | hv
            · rcases Finset.mem_insert.mp hv with rfl | hv
              · exact hcurrent
              · exact h.sound v (.inl hv)
            · exact h.sound v (.inr (List.mem_cons_of_mem _ hv))
          · rcases h.start with hv | hv
            · exact .inl (Finset.mem_insert_of_mem hv)
            · rcases List.mem_cons.mp hv with heq | hv
              · exact .inl (heq ▸ Finset.mem_insert_self _ _)
              · exact .inr hv
        · simp only [pending, herase, List.length_cons]
          omega
      · refine ⟨⟨(adj current).reverse ++ rest, insert current seen, false⟩,
          by simp [StackSearch.pass, hseen, hp], ?_, ?_⟩
        · have hpush : ∀ v, v ∈ seen ∨ v ∈ current :: rest →
              v ∈ insert current seen ∨ v ∈ (adj current).reverse ++ rest := by
            intro v hv
            rcases hv with hv | hv
            · exact .inl (Finset.mem_insert_of_mem hv)
            · rcases List.mem_cons.mp hv with rfl | hv
              · exact .inl (Finset.mem_insert_self _ _)
              · exact .inr (List.mem_append_right _ hv)
          refine ⟨?_, hpush _ h.start, fun h => (nomatch h), ?_⟩
          · intro v hv
            simp only [Finset.mem_insert, List.mem_append, List.mem_reverse] at hv
            rcases hv with (rfl | hv) | hv | hv
            · exact hcurrent
            · exact h.sound v (.inl hv)
            · exact hcurrent.trans (.edge hv)
            · exact h.sound v (.inr (List.mem_cons_of_mem _ hv))
          · intro _ u hu
            rcases Finset.mem_insert.mp hu with rfl | hu
            · exact ⟨by simpa using hp, fun v hv =>
                .inr (List.mem_append_left _ (List.mem_reverse.mpr hv))⟩
            · exact ⟨(hmissed u hu).1, fun v hv => hpush v ((hmissed u hu).2 v hv)⟩
        · simp only [pending, herase, List.length_append, List.length_reverse, List.length_cons]
          omega

/-- **The search finds what can be reached**, and ends. -/
theorem search_eq (nodes : Finset α) (hnodes : ∀ v, Reach adj root v → v ∈ nodes) :
    ∃ found, search adj p (1 + ∑ v ∈ nodes, (adj v).length) root = some found ∧
      (found = true ↔ ∃ v, Reach adj root v ∧ p v = true) := by
  obtain ⟨s, hs, hInv, hdone⟩ := whileLoop_spec (fun s : StackSearch α => !s.stack.isEmpty && !s.found)
    (StackSearch.pass adj p) (Inv adj p root) (pending adj nodes)
    (fun s hInv hcond => by
      rw [Bool.and_eq_true, Bool.not_eq_true', Bool.not_eq_true', List.isEmpty_eq_false_iff] at hcond
      exact hInv.pass hnodes hcond.1 hcond.2)
    (1 + ∑ v ∈ nodes, (adj v).length) ⟨[root], ∅, false⟩
    { sound := fun v hv => by
        obtain rfl : v = root := by simpa using hv
        exact .refl _
      start := .inr List.mem_cons_self
      found := fun h => nomatch h
      missed := fun _ u hu => absurd hu (Finset.notMem_empty u) }
    (by simp [pending])
  refine ⟨s.found, by rw [search, hs, Option.map_some], hInv.found, ?_⟩
  intro h
  obtain ⟨v, hv, hp⟩ := h
  by_contra hfound
  rw [Bool.not_eq_true] at hfound
  have hstack : s.stack = [] := by simpa [hfound] using hdone
  have hclosed : v ∈ s.seen := hv.closed (P := (· ∈ s.seen))
    (fun u hu w hw => by simpa [hstack] using (hInv.missed hfound u hu).2 w hw)
    (by simpa [hstack] using hInv.start)
  rw [(hInv.missed hfound v hclosed).1] at hp
  cases hp

end StackSearch

end Assure.Library
