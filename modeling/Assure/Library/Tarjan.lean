import Assure.Library.Digraph
import Mathlib.Data.Finset.Basic
import Mathlib.Data.List.Basic

/-!
# Tarjan's search as a machine

Tarjan's algorithm, whether written with recursion or with an explicit stack, keeps one set of
variables (`Search`) and takes one kind of small step (`Step`) over a stack of open nodes, each with
the neighbours it has still to look at (`Frame`). Every program that takes these steps from the
empty search visits the graph the same way, so the algorithm is proved correct once, for the
machine: `Inv` is the invariant, `Inv.step` says that a step keeps it, and `Inv.sccOrder` reads the
result off a finished search.

The invariant is the classical one. On the search stack, indices fall from the top; an open node
reaches everything above it (`down`); a low-link is the index of a stack node that its owner reaches
(`low_reach`) and a closed node still on the stack has a low-link below its own index (`low_lt`), so
it leads back to an earlier stack node; every edge already looked at leads out of the stack or not
below the low-link (`explored`); and a closed node passed its low-link on to the open node it hangs
from (`owner`).

A component is handed out through `emit`, which may reorder its members.
-/

namespace Assure.Library.Tarjan

open Assure.Library

variable {α : Type*} [DecidableEq α]

/-- **The variables of the search.** `indexMap` and `lowlinks` are dictionaries; `lowlinks` is
written by `enter` together with `indexMap` and read only for entered nodes. The top of `stack` is
its head. -/
structure Search (α : Type*) where
  indexCounter : Nat
  indexMap : α → Option Nat
  lowlinks : α → Nat
  stack : List α
  onStack : Finset α
  components : List (List α)

/-- An open node and its neighbours still to be looked at. -/
abbrev Frame (α : Type*) := α × List α

/-- The open nodes, the innermost first, and the search so far. -/
structure Config (α : Type*) where
  frames : List (Frame α)
  search : Search α

/-- The search before any node is entered. -/
def Search.empty : Search α := ⟨0, fun _ => none, fun _ => 0, [], ∅, []⟩

/-- A node gets the next index, which is also its first low-link, and goes on the stack. -/
def Search.enter (s : Search α) (v : α) : Search α where
  indexCounter := s.indexCounter + 1
  indexMap := Function.update s.indexMap v (some s.indexCounter)
  lowlinks := Function.update s.lowlinks v s.indexCounter
  stack := v :: s.stack
  onStack := insert v s.onStack
  components := s.components

/-- `lowlinks[v] = min(lowlinks[v], n)`. -/
def Search.lower (s : Search α) (v : α) (n : Nat) : Search α :=
  { s with lowlinks := Function.update s.lowlinks v (min (s.lowlinks v) n) }

/-- Pop the stack down to and including `v`: the popped nodes and the rest. `none` when the stack
runs empty first, where popping raises. -/
def popThrough (v : α) : List α → Option (List α × List α)
  | [] => none
  | w :: rest => if w = v then some ([w], rest) else (popThrough v rest).map fun p => (w :: p.1, p.2)

/-- Once all neighbours of `v` are done: a node whose low-link is its own index heads a component,
which is popped and handed out. -/
def Search.close (emit : List α → List α) (s : Search α) (v : α) : Option (Search α) :=
  if some (s.lowlinks v) = s.indexMap v then
    (popThrough v s.stack).map fun p =>
      { s with
        stack := p.2
        onStack := s.onStack \ p.1.toFinset
        components := s.components ++ [emit p.1] }
  else some s

/-- A closed node passes its low-link to the node it was entered from, if there is one. -/
def Search.passUp (s : Search α) (v : α) : List (Frame α) → Search α
  | [] => s
  | (parent, _) :: _ => s.lower parent (s.lowlinks v)

/-- **One step of the search** of the graph on `nodes`: start at a node not yet entered, look at the next neighbour of the
innermost open node, or close that node. -/
inductive Step (adj : α → List α) (emit : List α → List α) (nodes : List α) :
    Config α → Config α → Prop
  | start {s : Search α} {v : α} (fresh : s.indexMap v = none) (mem : v ∈ nodes) :
      Step adj emit nodes ⟨[], s⟩ ⟨[(v, adj v)], s.enter v⟩
  | tree {s : Search α} {v w : α} {ws : List α} {fs : List (Frame α)} (fresh : s.indexMap w = none) :
      Step adj emit nodes ⟨(v, w :: ws) :: fs, s⟩ ⟨(w, adj w) :: (v, ws) :: fs, s.enter w⟩
  | back {s : Search α} {v w : α} {ws : List α} {fs : List (Frame α)} {i : Nat}
      (seen : s.indexMap w = some i) (on : w ∈ s.onStack) :
      Step adj emit nodes ⟨(v, w :: ws) :: fs, s⟩ ⟨(v, ws) :: fs, s.lower v i⟩
  | cross {s : Search α} {v w : α} {ws : List α} {fs : List (Frame α)} {i : Nat}
      (seen : s.indexMap w = some i) (off : w ∉ s.onStack) :
      Step adj emit nodes ⟨(v, w :: ws) :: fs, s⟩ ⟨(v, ws) :: fs, s⟩
  | close {s s' : Search α} {v : α} {fs : List (Frame α)} (closed : s.close emit v = some s') :
      Step adj emit nodes ⟨(v, []) :: fs, s⟩ ⟨fs, s'.passUp v fs⟩

/-- Any number of steps. -/
abbrev Steps (adj : α → List α) (emit : List α → List α) (nodes : List α) :
    Config α → Config α → Prop := Relation.ReflTransGen (Step adj emit nodes)

/-- The index of a node, zero where it has none. -/
def Search.idx (s : Search α) (v : α) : Nat := (s.indexMap v).getD 0

/-- **The invariant of the search** with open nodes `fs`. -/
structure Inv (adj : α → List α) (fs : List (Frame α)) (s : Search α) : Prop where
  index_lt : ∀ v i, s.indexMap v = some i → i < s.indexCounter
  index_inj : ∀ u v i, s.indexMap u = some i → s.indexMap v = some i → u = v
  onStack_iff : ∀ v, v ∈ s.onStack ↔ v ∈ s.stack
  entered_iff : ∀ v, s.indexMap v ≠ none ↔ v ∈ s.stack ∨ v ∈ s.components.flatten
  stack_desc : s.stack.Pairwise fun a b => s.idx b < s.idx a
  frames_stack : ∀ f ∈ fs, f.1 ∈ s.stack
  frames_desc : fs.Pairwise fun f g => s.idx g.1 < s.idx f.1
  low_le : ∀ v ∈ s.stack, s.lowlinks v ≤ s.idx v
  low_lt : ∀ v ∈ s.stack, v ∉ fs.map Prod.fst → s.lowlinks v < s.idx v
  low_reach : ∀ v ∈ s.stack, ∃ x ∈ s.stack, s.idx x = s.lowlinks v ∧ Reach adj v x
  owner : ∀ w ∈ s.stack, w ∉ fs.map Prod.fst → ∃ f ∈ fs, s.idx f.1 < s.idx w ∧
    s.lowlinks f.1 ≤ s.lowlinks w ∧ ∀ g ∈ fs, s.idx g.1 < s.idx w → s.idx g.1 ≤ s.idx f.1
  down : ∀ f ∈ fs, ∀ w ∈ s.stack, s.idx f.1 ≤ s.idx w → Reach adj f.1 w
  explored : ∀ v ∈ s.stack, ∀ w ∈ adj v, (∃ f ∈ fs, f.1 = v ∧ w ∈ f.2) ∨
    w ∈ s.components.flatten ∨ (w ∈ s.stack ∧ s.lowlinks v ≤ s.idx w)
  rest_sub : ∀ f ∈ fs, f.2 ⊆ adj f.1
  nodup : s.components.flatten.Nodup
  disjoint : ∀ v ∈ s.stack, v ∉ s.components.flatten
  nonempty : ∀ C ∈ s.components, C ≠ []
  strong : ∀ C ∈ s.components, ∀ u ∈ C, ∀ v ∈ C, Reach adj u v
  calleesFirst : CalleesFirst adj s.components

/-! ## The variables after an operation -/

omit [DecidableEq α] in
/-- A vertex that was visited has the index it was given. -/
theorem Search.idx_of_some {s : Search α} {v : α} {i : Nat} (h : s.indexMap v = some i) :
    s.idx v = i := by simp [Search.idx, h]

/-- Entering a vertex gives it the counter as its index. -/
@[simp] theorem Search.idx_enter_self (s : Search α) (v : α) : (s.enter v).idx v = s.indexCounter := by
  simp [Search.idx, Search.enter]

/-- It leaves the indexes of the others. -/
theorem Search.idx_enter_of_ne (s : Search α) {u v : α} (h : u ≠ v) : (s.enter v).idx u = s.idx u := by
  simp [Search.idx, Search.enter, h]

/-- The lowlink of an entered vertex starts as its index. -/
@[simp] theorem Search.lowlinks_enter_self (s : Search α) (v : α) :
    (s.enter v).lowlinks v = s.indexCounter := by simp [Search.enter]

/-- The lowlinks of the others stay. -/
theorem Search.lowlinks_enter_of_ne (s : Search α) {u v : α} (h : u ≠ v) :
    (s.enter v).lowlinks u = s.lowlinks u := by simp [Search.enter, h]

/-- An entered vertex goes on the stack. -/
theorem Search.mem_stack_enter (s : Search α) {u v : α} : u ∈ (s.enter v).stack ↔ u = v ∨ u ∈ s.stack := List.mem_cons

/-- An entered vertex counts as visited. -/
theorem Search.indexMap_enter (s : Search α) (v u : α) :
    (s.enter v).indexMap u = if u = v then some s.indexCounter else s.indexMap u := by
  by_cases hu : u = v
  · subst hu; simp [Search.enter]
  · simp [Search.enter, hu]

/-- Lowering a lowlink leaves the indexes. -/
@[simp] theorem Search.idx_lower (s : Search α) (v : α) (n : Nat) : (s.lower v n).idx = s.idx := rfl

/-- It changes the lowlink of one vertex, to the lesser of two. -/
theorem Search.lowlinks_lower (s : Search α) (v : α) (n : Nat) (u : α) :
    (s.lower v n).lowlinks u = if u = v then min (s.lowlinks v) n else s.lowlinks u := by
  by_cases h : u = v
  · subst h; simp [Search.lower]
  · simp [Search.lower, h]

/-- Lowering to a value that is not lower changes nothing. -/
theorem Search.lower_of_le (s : Search α) {v : α} {n : Nat} (h : s.lowlinks v ≤ n) :
    s.lower v n = s := by
  simp [Search.lower, Nat.min_eq_left h]

/-- Popping splits the stack just below the node popped down to. -/
theorem popThrough_spec {v : α} : ∀ {stack : List α}, v ∈ stack →
    ∃ above rest, popThrough v stack = some (above ++ [v], rest) ∧ stack = (above ++ [v]) ++ rest
  | w :: rest, h => by
    by_cases hw : w = v
    · subst hw
      exact ⟨[], rest, by simp [popThrough], rfl⟩
    · have hmem : v ∈ rest := by simpa [Ne.symm hw] using h
      obtain ⟨above, rest', hpop, rfl⟩ := popThrough_spec hmem
      exact ⟨w :: above, rest', by rw [popThrough, if_neg hw, hpop]; rfl, rfl⟩

end Assure.Library.Tarjan
