import Assure.Library.Collections
import Assure.Library.Digraph
import Mathlib.Data.Prod.Lex
import Mathlib.Data.String.Basic

/-!
# The type dependency graph

The C types, externs and statics of a codebase are nodes, and a node has an edge to every node its
code mentions. Whatever the graph lists, it lists by the sort key of a node: the priority of its
kind, then its name. The key tells all nodes apart (`TypeNodeKey.sortKey_injective`), so sorting
forgets the order of the list that is sorted.
-/

namespace Assure

open Assure.Library Relation

/-- `TypeKind`. -/
inductive TypeKind
  | struct
  | union
  | enum
  | typedef
  | externVar
  | staticVar
  deriving DecidableEq

/-- `_TYPE_KIND_PRIORITY`: unions come before structs, which often embed them. -/
def TypeKind.priority : TypeKind → Nat
  | .typedef => 0
  | .enum => 1
  | .union => 2
  | .struct => 3
  | .externVar => 4
  | .staticVar => 5

/-- `TypeNodeKey`: equal names of different kinds are different nodes. -/
structure TypeNodeKey where
  kind : TypeKind
  name : String
  deriving DecidableEq

/-- `(_TYPE_KIND_PRIORITY[key.kind], key.name)`. -/
def TypeNodeKey.sortKey (key : TypeNodeKey) : Nat ×ₗ String := toLex (key.kind.priority, key.name)

/-- Kinds are told apart by their priorities. -/
theorem TypeKind.priority_injective : Function.Injective TypeKind.priority := by
  intro a b h
  cases a <;> cases b <;> first | rfl | cases h

/-- Keys are told apart by what they are sorted by, so sorting leaves no choice. -/
theorem TypeNodeKey.sortKey_injective : Function.Injective TypeNodeKey.sortKey := by
  rintro ⟨kind, name⟩ ⟨kind', name'⟩ h
  obtain ⟨hkind, hname⟩ := Prod.mk.inj (toLex.injective h)
  obtain rfl := TypeKind.priority_injective hkind
  obtain rfl : name = name' := hname
  rfl

/-- `sorted(keys, key=lambda key: (_TYPE_KIND_PRIORITY[key.kind], key.name))`. -/
def sortedKeys (keys : List TypeNodeKey) : List TypeNodeKey := sortedBy TypeNodeKey.sortKey keys

/-- Sorting loses no key. -/
theorem sortedKeys_perm (keys : List TypeNodeKey) : (sortedKeys keys).Perm keys :=
  sortedBy_perm _ keys

/-- Sorting keeps the members. -/
@[simp] theorem mem_sortedKeys {keys : List TypeNodeKey} {key : TypeNodeKey} :
    key ∈ sortedKeys keys ↔ key ∈ keys := mem_sortedBy

/-- The sorted list depends on the members alone, not on the order in which a set gives them. -/
theorem sortedKeys_congr {keys keys' : List TypeNodeKey} (h : keys.Perm keys') :
    sortedKeys keys = sortedKeys keys' := sortedBy_congr TypeNodeKey.sortKey_injective h

/-- Sorting twice is sorting once. -/
@[simp] theorem sortedKeys_sortedKeys (keys : List TypeNodeKey) :
    sortedKeys (sortedKeys keys) = sortedKeys keys := sortedKeys_congr (sortedKeys_perm keys)

/-- Without repetition, sorted keys strictly increase. -/
theorem sortedKeys_pairwise {keys : List TypeNodeKey} (h : keys.Nodup) :
    (sortedKeys keys).Pairwise fun a b => a.sortKey < b.sortKey := by
  have hnd : (sortedKeys keys).Pairwise (· ≠ ·) := (sortedKeys_perm keys).nodup_iff.mpr h
  refine ((sortedBy_pairwise TypeNodeKey.sortKey keys).and hnd).imp fun hab => ?_
  exact lt_of_le_of_ne hab.1 fun heq => hab.2 (TypeNodeKey.sortKey_injective heq)

/-- **`TypeDependencyGraph`**: distinct nodes, and for each the nodes it depends on. Looking up a key
that is no node finds nothing. -/
structure TypeDependencyGraph where
  nodes : List TypeNodeKey
  adjacency : TypeNodeKey → Finset TypeNodeKey
  nodup : nodes.Nodup
  mem_nodes : ∀ source target, target ∈ adjacency source → source ∈ nodes ∧ target ∈ nodes

namespace TypeDependencyGraph

/-- `b` can be reached from `a` along dependencies. -/
def Reaches (g : TypeDependencyGraph) : TypeNodeKey → TypeNodeKey → Prop :=
  ReflTransGen fun source target => target ∈ g.adjacency source

/-- The dependencies of a node in the order they are looked at. -/
def sortedDependencies (order : SetOrder TypeNodeKey) (g : TypeDependencyGraph)
    (node : TypeNodeKey) : List TypeNodeKey := sortedKeys (order.toList (g.adjacency node))

variable {order : SetOrder TypeNodeKey} {g : TypeDependencyGraph}

/-- The sorted dependencies of a type are its neighbours. -/
@[simp] theorem mem_sortedDependencies {a b : TypeNodeKey} :
    b ∈ g.sortedDependencies order a ↔ b ∈ g.adjacency a := by
  rw [sortedDependencies, mem_sortedKeys, order.mem_toList]

/-- Any listing of the dependencies reaches what the graph reaches. -/
theorem reach_iff {adj : TypeNodeKey → List TypeNodeKey}
    (hadj : ∀ a b, b ∈ adj a ↔ b ∈ g.adjacency a) {a b : TypeNodeKey} :
    Reach adj a b ↔ g.Reaches a b := by
  have heq : (fun u v => v ∈ adj u) = fun u v => v ∈ g.adjacency u :=
    funext fun u => funext fun v => propext (hadj u v)
  rw [Reach, heq, Reaches]

/-- So reaching along them is reaching in the graph. -/
theorem reach_sortedDependencies {a b : TypeNodeKey} :
    Reach (g.sortedDependencies order) a b ↔ g.Reaches a b :=
  reach_iff fun _ _ => mem_sortedDependencies

/-- They are nodes of the graph. -/
theorem sortedDependencies_subset {v : TypeNodeKey} : g.sortedDependencies order v ⊆ g.nodes :=
  fun w hw => (g.mem_nodes v w (mem_sortedDependencies.mp hw)).2

end TypeDependencyGraph

end Assure
