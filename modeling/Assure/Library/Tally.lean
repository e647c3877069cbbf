import Mathlib.Algebra.BigOperators.Group.List.Basic
import Mathlib.Data.List.Nodup
import Mathlib.Tactic.Common

/-!
# Tables of totals

Records are added up under a key, as in a dictionary that begins with zeros: a key has the total of its records, and
all totals together are the total of all records.
-/

namespace Assure.Library

variable {α κ β : Type*} [DecidableEq κ]

section

variable [AddMonoid β]

/-- `table[key] += value` -/
def addAt (key : κ) (value : β) : List (κ × β) → List (κ × β)
  | [] => [(key, 0 + value)]
  | (k, total) :: table => if k = key then (k, total + value) :: table else (k, total) :: addAt key value table

/-- **The totals of records under their keys**, by the first use of a key. -/
def tally (key : α → κ) (value : α → β) (records : List α) : List (κ × β) :=
  records.foldl (fun table r => addAt (key r) (value r) table) []

/-- A key that was counted before keeps its place, and a new one comes last. -/
theorem keys_addAt (key : κ) (value : β) (table : List (κ × β)) :
    (addAt key value table).map Prod.fst =
      if key ∈ table.map Prod.fst then table.map Prod.fst else table.map Prod.fst ++ [key] := by
  induction table with
  | nil => rfl
  | cons entry table ih =>
    rw [addAt]
    by_cases hkey : entry.1 = key
    · rw [if_pos hkey, List.map_cons, List.map_cons, if_pos (hkey ▸ List.mem_cons_self)]
    · rw [if_neg hkey, List.map_cons, List.map_cons, ih]
      by_cases hmem : key ∈ table.map Prod.fst
      · rw [if_pos hmem, if_pos (List.mem_cons_of_mem _ hmem)]
      · rw [if_neg hmem, if_neg fun h => (List.mem_cons.mp h).elim (fun heq => hkey heq.symm) hmem, List.cons_append]

end

variable [AddCommMonoid β]

/-- What is added under a key is added to the total. -/
theorem sum_addAt (key : κ) (value : β) (table : List (κ × β)) :
    ((addAt key value table).map Prod.snd).sum = (table.map Prod.snd).sum + value := by
  induction table with
  | nil => simp [addAt]
  | cons entry table ih =>
    rw [addAt]
    split
    · simp only [List.map_cons, List.sum_cons]
      exact add_right_comm _ _ _
    · rw [List.map_cons, List.sum_cons, ih, List.map_cons, List.sum_cons, add_assoc]

/-- A key has its total once. -/
theorem nodup_keys_tally (key : α → κ) (value : α → β) (records : List α) :
    ((tally key value records).map Prod.fst).Nodup := by
  have hfold : ∀ table : List (κ × β), (table.map Prod.fst).Nodup →
      ((records.foldl (fun table r => addAt (key r) (value r) table) table).map Prod.fst).Nodup := by
    induction records with
    | nil => exact fun _ h => h
    | cons r records ih =>
      intro table h
      refine ih _ ?_
      rw [keys_addAt]
      split
      · exact h
      · rename_i hnot
        exact List.nodup_append.mpr ⟨h, List.nodup_singleton _, fun a ha b hb =>
          (List.mem_singleton.mp hb) ▸ fun heq => hnot (heq ▸ ha)⟩
  exact hfold [] List.nodup_nil

/-- **All totals together** are the total of the records. -/
theorem sum_tally (key : α → κ) (value : α → β) (records : List α) :
    ((tally key value records).map Prod.snd).sum = (records.map value).sum := by
  have hfold : ∀ table : List (κ × β),
      ((records.foldl (fun table r => addAt (key r) (value r) table) table).map Prod.snd).sum =
        (table.map Prod.snd).sum + (records.map value).sum := by
    induction records with
    | nil => exact fun table => (add_zero _).symm
    | cons r records ih =>
      intro table
      rw [List.foldl_cons, ih, sum_addAt, List.map_cons, List.sum_cons, add_assoc]
  exact (hfold []).trans (zero_add _)

end Assure.Library
