import Assure.Library.Collections
import Assure.Library.PostOrder
import Mathlib.Data.String.Basic

/-!
# The callees of a function in order

A merged translation is split into one file for each function. The file of `fn` has the functions it calls,
directly or not, with callees first; `closure_order` finds them depth first. What a function calls is the
identifiers in its text that are names of functions.

The result is for every map. As many nested calls as there are functions are shown to be enough; the
limit of the interpreter is not modelled.
-/

namespace Assure

open Assure.Library

/-- The names of the functions that a function calls, `sorted(fns[name]["idents"] & set(fns))`; it raises for
a name that is not in the map. -/
def calledBy (fns : Dict String (Finset String)) (name : String) : Option (List String) :=
  (fns.get? name).map fun idents => (SetOrder.ascending String).toList (idents ∩ fns.keys.toFinset)

/-- **`closure_order`**, with calls of `visit` nested as deep as there are functions; it answers nothing when
it raises. -/
def closureOrder (fn : String) (fns : Dict String (Finset String)) : Option (List String) :=
  (visit (calledBy fns) (fns.keys.toFinset.card + 1) fn ⟨[], ∅⟩).map fun s => s.order.filter (· ≠ fn)

/-- A function of the map calls another one, or itself. -/
def Calls (fns : Dict String (Finset String)) (caller callee : String) : Prop :=
  callee ∈ fns.keys ∧ ∃ idents, fns.get? caller = some idents ∧ callee ∈ idents

/-- A function leads to another one by calls. -/
def Leads (fns : Dict String (Finset String)) : String → String → Prop := Relation.ReflTransGen (Calls fns)

/-- The neighbours that the search goes along are the calls of a function that are functions of the
map. -/
theorem mem_neighbours_calledBy {fns : Dict String (Finset String)} {caller callee : String} :
    callee ∈ neighbours (calledBy fns) caller ↔ Calls fns caller callee := by
  unfold neighbours calledBy Calls
  cases fns.get? caller with
  | none => simp
  | some idents => simp [SetOrder.mem_toList, and_comm]

/-- Reaching along them is leading to, by calls. -/
theorem reach_calledBy {fns : Dict String (Finset String)} {caller callee : String} :
    Reach (neighbours (calledBy fns)) caller callee ↔ Leads fns caller callee := by
  have heq : (fun u v => v ∈ neighbours (calledBy fns) u) = Calls fns :=
    funext fun u => funext fun v => propext mem_neighbours_calledBy
  unfold Reach Leads
  rw [heq]

/-- Calls stay among the functions of the map. -/
theorem calledBy_some {fns : Dict String (Finset String)} {name : String} (h : name ∈ fns.keys.toFinset) :
    ∃ callees, calledBy fns name = some callees ∧ ∀ callee ∈ callees, callee ∈ fns.keys.toFinset := by
  cases hget : fns.get? name with
  | none => exact absurd (List.mem_toFinset.mp h) ((Dict.get?_eq_none_iff fns name).mp hget)
  | some idents =>
    refine ⟨_, by rw [calledBy, hget, Option.map_some], fun callee hcallee => ?_⟩
    exact (Finset.mem_inter.mp ((SetOrder.mem_toList _ _ _).mp hcallee)).2

/-- **What `closure_order` answers**: the functions that `fn` leads to apart from itself, each once, and a
callee before its caller unless it leads back to it. -/
structure CalleesBefore (fns : Dict String (Finset String)) (fn : String) (order : List String) : Prop where
  mem_iff : ∀ name, name ∈ order ↔ name ≠ fn ∧ Leads fns fn name
  nodup : order.Nodup
  calleesFirst : ∀ before caller after, order = before ++ caller :: after →
    ∀ callee ∈ order, Calls fns caller callee → ¬ Leads fns callee caller → callee ∈ before

/-- Filtering keeps what stands before. -/
theorem filter_split {α : Type*} {p : α → Bool} {xs before after : List α} {x : α}
    (h : xs.filter p = before ++ x :: after) :
    ∃ before' after', xs = before' ++ x :: after' ∧ before'.filter p = before := by
  obtain ⟨l₁, l₂, rfl, h₁, h₂⟩ := List.filter_eq_append_iff.mp h
  obtain ⟨m₁, m₂, rfl, hnot, -, -⟩ := List.filter_eq_cons_iff.mp h₂
  refine ⟨l₁ ++ m₁, m₂, (List.append_assoc _ _ _).symm, ?_⟩
  rw [List.filter_append, h₁, List.filter_eq_nil_iff.mpr hnot, List.append_nil]

/-- **`closure_order` returns, with the functions that `fn` leads to**, each of them once and a callee before its
caller unless it leads back to it. The depth that the walk is given is always enough, so nothing is asked but that
`fn` has an entry. -/
theorem closureOrder_calleesBefore {fn : String} {fns : Dict String (Finset String)} (hfn : fn ∈ fns.keys) :
    ∃ order, closureOrder fn fns = some order ∧ CalleesBefore fns fn order := by
  obtain ⟨s, hs, hnodup, hmem, hfirst⟩ := @visit_root _ _ (calledBy fns) fns.keys.toFinset
    (fun _ => calledBy_some) fn (List.mem_toFinset.mpr hfn)
  refine ⟨s.order.filter (· ≠ fn), by rw [closureOrder, hs, Option.map_some], ?_, hnodup.filter _, ?_⟩
  · intro name
    rw [List.mem_filter, decide_eq_true_eq, hmem, reach_calledBy]
    exact and_comm
  · intro before caller after hsplit callee hcallee hcalls hback
    obtain ⟨before', after', horder, hbefore⟩ := filter_split hsplit
    have hne := (List.mem_filter.mp hcallee).2
    rcases hfirst before' caller after' horder callee (mem_neighbours_calledBy.mpr hcalls) with hin | hreach
    · exact hbefore ▸ List.mem_filter.mpr ⟨hin, hne⟩
    · exact absurd (reach_calledBy.mp hreach) hback

/-- Two functions that call each other and a third one. -/
theorem closureOrder_calleesBefore_cycle :
    ∃ order, closureOrder "a" ⟨[("a", {"a", "b", "x"}), ("b", {"a", "c"}), ("c", ∅)], by decide⟩ = some order ∧
      CalleesBefore ⟨[("a", {"a", "b", "x"}), ("b", {"a", "c"}), ("c", ∅)], by decide⟩ "a" order :=
  closureOrder_calleesBefore (by decide)

end Assure
