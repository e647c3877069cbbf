import Mathlib.Order.Bounds.Basic
import Mathlib.Order.MinMax

/-!
# Maxima of minima

The directed Hausdorff value of two lists: the greatest, over the members of the one, of the least distance
to a member of the other. A search for it that gives up at a bound no value exceeds finds the same.
-/

namespace Assure.Library

variable {α β γ : Type*} [LinearOrder γ]

/-- **The greatest of the least distances** from a member of one list to those of another. -/
def IsDirectedHausdorff (d : α → β → γ) (A : List α) (B : List β) (r : γ) : Prop :=
  IsGreatest {m | ∃ a ∈ A, IsLeast {v | ∃ b ∈ B, d a b = v} m} r

/-- A running minimum is the least of its start and of all it has met. -/
theorem isLeast_foldl_min (f : β → γ) (B : List β) (start : γ) :
    IsLeast {v | v = start ∨ ∃ b ∈ B, f b = v} (B.foldl (fun least b => min least (f b)) start) := by
  induction B generalizing start with
  | nil =>
    refine ⟨.inl rfl, ?_⟩
    rintro v (rfl | ⟨b, hb, -⟩)
    · exact le_rfl
    · cases hb
  | cons b B ih =>
    obtain ⟨hmem, hlower⟩ := ih (min start (f b))
    refine ⟨?_, ?_⟩
    · rcases hmem with hstart | ⟨c, hc, hv⟩
      · rw [List.foldl_cons, hstart]
        rcases min_choice start (f b) with h | h
        · exact .inl h
        · exact .inr ⟨b, List.mem_cons_self, h.symm⟩
      · exact .inr ⟨c, List.mem_cons_of_mem b hc, hv⟩
    · rintro v (rfl | ⟨c, hc, rfl⟩)
      · exact (hlower (.inl rfl)).trans (min_le_left _ _)
      · rcases List.mem_cons.mp hc with rfl | hc
        · exact (hlower (.inl rfl)).trans (min_le_right _ _)
        · exact hlower (.inr ⟨c, hc, rfl⟩)

/-- Where no value exceeds the start, the start does not count. -/
theorem isLeast_foldl_min_of_le {f : β → γ} {start : γ} (hcap : ∀ b, f b ≤ start) (b : β) (B : List β) :
    IsLeast {v | ∃ c ∈ b :: B, f c = v} ((b :: B).foldl (fun least b => min least (f b)) start) := by
  obtain ⟨hmem, hlower⟩ := isLeast_foldl_min f (b :: B) start
  refine ⟨?_, fun v hv => hlower (.inr hv)⟩
  rcases hmem with hstart | hmem
  · -- the minimum is the start, which the first value does not exceed
    refine ⟨b, List.mem_cons_self, le_antisymm ((hcap b).trans_eq hstart.symm) ?_⟩
    exact hlower (.inr ⟨b, List.mem_cons_self, rfl⟩)
  · exact hmem

/-- **A running maximum that stops at `cap`.** -/
def maxUntil (cap : γ) : Option γ → List γ → Option γ
  | best, [] => best
  | best, v :: values =>
    let best := (best.map (max · v)).getD v
    if v = cap then some best else maxUntil cap (some best) values

/-- **Stopping early does not change a maximum** of values that do not exceed the cap. -/
theorem maxUntil_spec {cap : γ} : ∀ (values : List γ) (best : γ), (∀ v ∈ values, v ≤ cap) → best ≤ cap →
    ∃ r, maxUntil cap (some best) values = some r ∧ IsGreatest {v | v = best ∨ v ∈ values} r
  | [], best, _, _ => by
    refine ⟨best, rfl, .inl rfl, ?_⟩
    rintro v (rfl | hv)
    · exact le_rfl
    · cases hv
  | v :: values, best, hvalues, hbest => by
    have hv : v ≤ cap := hvalues v List.mem_cons_self
    by_cases hcap : v = cap
    · refine ⟨max best v, by simp [maxUntil, hcap], ?_, ?_⟩
      · exact .inr (by simp [max_eq_right (hbest.trans_eq hcap.symm)])
      · rintro w (rfl | hw)
        · exact le_max_left _ _
        · exact ((hvalues w hw).trans_eq hcap.symm).trans (le_max_right _ _)
    · obtain ⟨r, hr, hmem, hupper⟩ := maxUntil_spec values (max best v)
        (fun w hw => hvalues w (List.mem_cons_of_mem v hw)) (max_le hbest hv)
      refine ⟨r, by simpa [maxUntil, hcap] using hr, ?_, ?_⟩
      · rcases hmem with rfl | hmem
        · rcases max_choice best v with h | h
          · exact .inl h
          · exact .inr (h.symm ▸ List.mem_cons_self)
        · exact .inr (List.mem_cons_of_mem v hmem)
      · rintro w (rfl | hw)
        · exact (le_max_left _ v).trans (hupper (.inl rfl))
        · rcases List.mem_cons.mp hw with rfl | hw
          · exact (le_max_right best _).trans (hupper (.inl rfl))
          · exact hupper (.inr hw)

/-- The first value counts as any other. -/
theorem maxUntil_none {cap : γ} (v : γ) {values : List γ} (h : ∀ w ∈ v :: values, w ≤ cap) :
    ∃ r, maxUntil cap none (v :: values) = some r ∧ IsGreatest {w | w ∈ v :: values} r := by
  have hv : v ≤ cap := h v List.mem_cons_self
  by_cases hcap : v = cap
  · exact ⟨v, by simp [maxUntil, hcap], List.mem_cons_self, fun w hw => (h w hw).trans_eq hcap.symm⟩
  · obtain ⟨r, hr, hgreatest⟩ := maxUntil_spec values v (fun w hw => h w (List.mem_cons_of_mem v hw)) hv
    refine ⟨r, by simpa [maxUntil, hcap] using hr, ?_⟩
    simpa only [List.mem_cons] using hgreatest

/-- The values that a search collects give the greatest of the least distances. -/
theorem IsGreatest.isDirectedHausdorff {d : α → β → γ} {A : List α} {B : List β} {least : α → γ}
    (hleast : ∀ a, IsLeast {v | ∃ b ∈ B, d a b = v} (least a)) {r : γ}
    (h : IsGreatest {m | m ∈ A.map least} r) : IsDirectedHausdorff d A B r := by
  have hset : {m | ∃ a ∈ A, IsLeast {v | ∃ b ∈ B, d a b = v} m} = {m | m ∈ A.map least} := by
    ext m
    refine Iff.trans (exists_congr fun a => and_congr_right fun _ => ?_) List.mem_map.symm
    exact ⟨fun hm => (hleast a).unique hm, fun hm => hm ▸ hleast a⟩
  unfold IsDirectedHausdorff
  rwa [hset]

end Assure.Library
