import Mathlib.Tactic.Common

/-!
# While loops with a fuel bound

A Python `while` loop is a condition and a body over the loop's variables. The body answers
`none` when it raises. `whileLoop` runs the loop at most `fuel` times and answers `none` when the
body raises or the fuel runs out before the condition fails, so a proof that the answer is `some`
says both that nothing is raised and that the loop ends.

`whileLoop_spec` is the one induction every loop of the development uses: an invariant the body
keeps, and a measure it lowers.
-/

namespace Assure.Library

variable {σ : Type*}

/-- **`while cond: body`**, with at most `fuel` passes of the body. -/
def whileLoop (cond : σ → Bool) (body : σ → Option σ) : Nat → σ → Option σ
  | 0, s => if cond s then none else some s
  | fuel + 1, s => if cond s then (body s).bind (whileLoop cond body fuel) else some s

/-- A loop whose condition fails at once changes nothing. -/
theorem whileLoop_done {cond : σ → Bool} {body : σ → Option σ} {s : σ} (h : cond s = false) :
    ∀ fuel, whileLoop cond body fuel s = some s
  | 0 => by simp [whileLoop, h]
  | _ + 1 => by simp [whileLoop, h]

/-- **The loop rule.** A body that keeps `Inv`, raises nothing and lowers `μ` gives a loop that
ends within `μ` passes, in a state where `Inv` holds and the condition fails. -/
theorem whileLoop_spec (cond : σ → Bool) (body : σ → Option σ) (Inv : σ → Prop) (μ : σ → Nat)
    (keeps : ∀ s, Inv s → cond s = true → ∃ s', body s = some s' ∧ Inv s' ∧ μ s' < μ s) :
    ∀ (fuel : Nat) (s : σ), Inv s → μ s ≤ fuel →
      ∃ s', whileLoop cond body fuel s = some s' ∧ Inv s' ∧ cond s' = false := by
  intro fuel
  induction fuel with
  | zero =>
    intro s hs hμ
    cases hc : cond s with
    | false => exact ⟨s, whileLoop_done hc 0, hs, hc⟩
    | true =>
      obtain ⟨s', _, _, hlt⟩ := keeps s hs hc
      omega
  | succ fuel ih =>
    intro s hs hμ
    cases hc : cond s with
    | false => exact ⟨s, whileLoop_done hc _, hs, hc⟩
    | true =>
      obtain ⟨s', hb, hs', hlt⟩ := keeps s hs hc
      obtain ⟨t, ht, hInv, hcond⟩ := ih s' hs' (by omega)
      exact ⟨t, by simp [whileLoop, hc, hb, ht], hInv, hcond⟩

/-- A `for` loop whose passes raise nothing raises nothing. -/
theorem foldlM_eq_some_foldl {α β : Type*} {f : β → α → Option β} {g : β → α → β} :
    ∀ (l : List α) (b : β), (∀ b, ∀ a ∈ l, f b a = some (g b a)) → l.foldlM f b = some (l.foldl g b)
  | [], _, _ => rfl
  | a :: l, b, h => by
    rw [List.foldlM_cons, h b a List.mem_cons_self, List.foldl_cons]
    exact foldlM_eq_some_foldl l (g b a) fun b a ha => h b a (List.mem_cons_of_mem _ ha)

/-- What is kept of the values so far and the state is so after all of them. -/
theorem foldlM_history {α β : Type*} {f : β → α → Option β} (Inv : List α → β → Prop)
    (keeps : ∀ past b a b', Inv past b → f b a = some b' → Inv (past ++ [a]) b') :
    ∀ {l past : List α} {b b' : β}, Inv past b → l.foldlM f b = some b' → Inv (past ++ l) b'
  | [], past, b, b', hInv, hrun => by
    obtain rfl := Option.some.inj hrun
    rw [List.append_nil]
    exact hInv
  | a :: l, past, b, b', hInv, hrun => by
    rw [List.foldlM_cons] at hrun
    obtain ⟨next, hstep, hrun⟩ := Option.bind_eq_some_iff.mp hrun
    have hrest := foldlM_history Inv keeps (keeps past b a next hInv hstep) hrun
    rw [List.append_assoc] at hrest
    exact hrest

/-- **A `for` loop whose passes keep an invariant** and raise nothing. -/
theorem exists_foldlM_of_keeps {α β : Type*} {f : β → α → Option β} (Inv : β → Prop) :
    ∀ (l : List α) (b : β), (∀ b, ∀ a ∈ l, Inv b → ∃ b', f b a = some b' ∧ Inv b') → Inv b →
      ∃ b', l.foldlM f b = some b' ∧ Inv b'
  | [], b, _, hb => ⟨b, rfl, hb⟩
  | a :: l, b, h, hb => by
    obtain ⟨b₁, hb₁, hInv⟩ := h b a List.mem_cons_self hb
    rw [List.foldlM_cons, hb₁]
    exact exists_foldlM_of_keeps Inv l b₁ (fun b a ha => h b a (List.mem_cons_of_mem _ ha)) hInv

/-- A comprehension whose entries raise nothing raises nothing. -/
theorem mapM_eq_some_map {α β : Type*} {f : α → Option β} {g : α → β} :
    ∀ l : List α, (∀ a ∈ l, f a = some (g a)) → l.mapM f = some (l.map g)
  | [], _ => rfl
  | a :: l, h => by
    rw [List.mapM_cons, h a List.mem_cons_self,
      mapM_eq_some_map l fun a ha => h a (List.mem_cons_of_mem _ ha)]
    rfl

/-- A comprehension raises where an entry does. -/
theorem mapM_eq_none_iff {α β : Type*} {f : α → Option β} :
    ∀ {l : List α}, l.mapM f = none ↔ ∃ a ∈ l, f a = none
  | [] => by simp
  | a :: l => by
    rw [List.mapM_cons]
    cases ha : f a with
    | none => simp [ha]
    | some b =>
      have ih := @mapM_eq_none_iff _ _ f l
      cases hl : l.mapM f with
      | none => simpa [ha] using ih.mp hl
      | some r => simpa [ha, hl] using ih

/-- The members of a comprehension. -/
theorem exists_of_mem_mapM {α β : Type*} {f : α → Option β} :
    ∀ {l : List α} {r : List β}, l.mapM f = some r → ∀ b ∈ r, ∃ a ∈ l, f a = some b
  | [], r, h, b, hb => by
    obtain rfl : [] = r := Option.some.inj h
    cases hb
  | a :: l, r, h, b, hb => by
    rw [List.mapM_cons] at h
    obtain ⟨first, hfirst, h⟩ := Option.bind_eq_some_iff.mp h
    obtain ⟨rest, hrest, h⟩ := Option.bind_eq_some_iff.mp h
    obtain rfl : first :: rest = r := Option.some.inj h
    rcases List.mem_cons.mp hb with rfl | hb
    · exact ⟨a, List.mem_cons_self, hfirst⟩
    · obtain ⟨a', ha', hb'⟩ := exists_of_mem_mapM hrest b hb
      exact ⟨a', List.mem_cons_of_mem _ ha', hb'⟩

/-- What a whole loop keeps, whatever fuel it was given: an answer satisfies the invariant. -/
theorem whileLoop_keeps {cond : σ → Bool} {body : σ → Option σ} (Inv : σ → Prop)
    (keeps : ∀ s s', Inv s → cond s = true → body s = some s' → Inv s') :
    ∀ (fuel : Nat) (s t : σ), Inv s → whileLoop cond body fuel s = some t → Inv t := by
  intro fuel
  induction fuel with
  | zero =>
    intro s t hs h
    cases hc : cond s <;> simp_all [whileLoop]
  | succ fuel ih =>
    intro s t hs h
    cases hc : cond s with
    | false =>
      rw [whileLoop_done hc] at h
      cases h
      exact hs
    | true =>
      simp only [whileLoop, hc, if_true] at h
      obtain ⟨s', hb, h⟩ := Option.bind_eq_some_iff.mp h
      exact ih s' t (keeps s s' hs hc hb) h

/-- **A loop that simulates another one** answers when that one does, in a state that stands for its state. -/
theorem whileLoop_simulates {τ : Type*} {cond : σ → Bool} {body : σ → Option σ} {cond' : τ → Bool}
    {body' : τ → Option τ} (R : σ → τ → Prop) (hcond : ∀ s t, R s t → cond s = cond' t)
    (hbody : ∀ s t t', R s t → cond' t = true → body' t = some t' → ∃ s', body s = some s' ∧ R s' t') :
    ∀ (fuel : Nat) (s : σ) (t t' : τ), R s t → whileLoop cond' body' fuel t = some t' →
      ∃ s', whileLoop cond body fuel s = some s' ∧ R s' t' := by
  intro fuel
  induction fuel with
  | zero =>
    intro s t t' hR h
    rw [whileLoop] at h
    rw [whileLoop, hcond s t hR]
    split at h
    · cases h
    · obtain rfl := Option.some.inj h
      rename_i hstop
      exact ⟨s, if_neg hstop, hR⟩
  | succ fuel ih =>
    intro s t t' hR h
    rw [whileLoop] at h
    rw [whileLoop, hcond s t hR]
    split at h
    · rename_i hgo
      obtain ⟨next, hnext, h⟩ := Option.bind_eq_some_iff.mp h
      obtain ⟨s₁, hs₁, hR₁⟩ := hbody s t next hR hgo hnext
      obtain ⟨s', hs', hR'⟩ := ih s₁ next t' hR₁ h
      exact ⟨s', by rw [if_pos hgo, hs₁, Option.bind_some, hs'], hR'⟩
    · obtain rfl := Option.some.inj h
      rename_i hstop
      exact ⟨s, if_neg hstop, hR⟩

end Assure.Library
