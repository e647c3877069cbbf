import Mathlib.Data.List.Sort
import Mathlib.Data.List.Basic

/-!
# Cutting spans out of a list

A list from which spans of places are cut, one after another in the order of their starts, with a cursor behind what
has been dealt with. Spans may overlap. What is left is what stands at a place that no span covers (`mem_cutSpans`).
-/

namespace Assure.Library

variable {α β : Type*}

/-- The list from the cursor on without the spans, which come with their starts in ascending order. -/
def cutSpans (l : List α) : Nat → List (Nat × Nat) → List α
  | cursor, [] => l.drop cursor
  | cursor, (start, stop) :: spans =>
    if stop ≤ cursor then cutSpans l cursor spans
    else (l.take (max start cursor)).drop cursor ++ cutSpans l stop spans

/-- **A place that one of the spans covers.** -/
def Covered (spans : List (Nat × Nat)) (i : Nat) : Prop := ∃ span ∈ spans, span.1 ≤ i ∧ i < span.2

/-- A place is covered by the first span or by the others. -/
theorem covered_cons {start stop i : Nat} {spans : List (Nat × Nat)} :
    Covered ((start, stop) :: spans) i ↔ (start ≤ i ∧ i < stop) ∨ Covered spans i := by
  unfold Covered
  rw [List.exists_mem_cons_iff]

/-- Cutting does not look at what it cuts. -/
theorem cutSpans_map (f : α → β) (l : List α) : ∀ (cursor : Nat) (spans : List (Nat × Nat)),
    cutSpans (l.map f) cursor spans = (cutSpans l cursor spans).map f
  | cursor, [] => (List.map_drop ..).symm
  | cursor, (start, stop) :: spans => by
    rw [cutSpans, cutSpans]
    split
    · exact cutSpans_map f l cursor spans
    · rw [cutSpans_map f l stop spans, List.map_append, List.map_drop, List.map_take]

/-- The members of a part of a list, with their places. -/
theorem mem_zipIdx_part {l : List α} {a : α} {i start stop : Nat} :
    (a, i) ∈ (l.zipIdx.take stop).drop start ↔ l[i]? = some a ∧ start ≤ i ∧ i < stop := by
  rw [List.mem_iff_getElem?]
  constructor
  · rintro ⟨k, hk⟩
    rw [List.getElem?_drop, List.getElem?_take] at hk
    split at hk
    · rename_i hlt
      rw [List.getElem?_zipIdx, Nat.zero_add] at hk
      obtain ⟨b, hb, heq⟩ := Option.map_eq_some_iff.mp hk
      obtain ⟨rfl, rfl⟩ := Prod.mk.inj heq
      exact ⟨hb, Nat.le_add_right start k, hlt⟩
    · cases hk
  · rintro ⟨ha, hstart, hstop⟩
    refine ⟨i - start, ?_⟩
    rw [List.getElem?_drop, Nat.add_sub_cancel' hstart, List.getElem?_take, if_pos hstop, List.getElem?_zipIdx, ha,
      Nat.zero_add]
    rfl

/-- The places from some place on, with what stands there. -/
theorem mem_zipIdx_drop {l : List α} {a : α} {i start : Nat} :
    (a, i) ∈ l.zipIdx.drop start ↔ l[i]? = some a ∧ start ≤ i := by
  have hall : l.zipIdx = l.zipIdx.take l.length := by rw [List.take_of_length_le (by rw [List.length_zipIdx])]
  rw [hall, mem_zipIdx_part]
  refine and_congr_right fun ha => and_iff_left ?_
  exact (List.getElem?_eq_some_iff.mp ha).1

/-- **What is left is what no span covers.** -/
theorem mem_cutSpans {l : List α} {a : α} {i : Nat} : ∀ {spans : List (Nat × Nat)} (cursor : Nat),
    spans.Pairwise (fun s t => s.1 ≤ t.1) →
      ((a, i) ∈ cutSpans l.zipIdx cursor spans ↔ l[i]? = some a ∧ cursor ≤ i ∧ ¬ Covered spans i)
  | [], cursor, _ => by
    rw [cutSpans, mem_zipIdx_drop]
    refine and_congr_right fun _ => (and_iff_left ?_).symm
    rintro ⟨_, hin, _⟩
    cases hin
  | (start, stop) :: spans, cursor, hsorted => by
    obtain ⟨hfirst, hrest⟩ := List.pairwise_cons.mp hsorted
    rw [cutSpans, covered_cons]
    split
    · rw [mem_cutSpans cursor hrest]
      refine and_congr_right fun _ => and_congr_right fun hi => not_congr (or_iff_right ?_).symm
      omega
    · rename_i hlt
      rw [List.mem_append, mem_zipIdx_part, mem_cutSpans stop hrest]
      -- a place before the first start is not covered by a later span either
      have hbefore : i < start → ¬ Covered spans i := by
        rintro hi ⟨span, hin, hle, -⟩
        have := hfirst span hin
        exact absurd (Nat.lt_of_lt_of_le hi this) (Nat.not_lt.mpr hle)
      constructor
      · rintro (⟨ha, hle, hi⟩ | ⟨ha, hle, hnot⟩)
        · have hi : i < start := by omega
          exact ⟨ha, hle, not_or.mpr ⟨by omega, hbefore hi⟩⟩
        · exact ⟨ha, by omega, not_or.mpr ⟨by omega, hnot⟩⟩
      · rintro ⟨ha, hle, hnot⟩
        obtain ⟨houtside, hnot⟩ := not_or.mp hnot
        rcases Nat.lt_or_ge i start with hi | hi
        · exact .inl ⟨ha, hle, by omega⟩
        · exact .inr ⟨ha, by omega, hnot⟩

end Assure.Library
