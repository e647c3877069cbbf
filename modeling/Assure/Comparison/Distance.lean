import Assure.Comparison.Kquery
import Assure.Comparison.MatchNodes
import Mathlib.Data.List.Permutation

/-!
# The distance of two expressions

`compare_graph_optimize_edit_distance` answers 0 for isomorphic graphs and else the first edit
distance the search comes up with. A distance of 0 says that the two trees are alike, and no more: equal up
to the order of the operands, the types of the nodes, and labels that `matchNodes` lets stand for each other.
That `networkx` decides isomorphism exactly and that its distances are the costs of edit paths is assumed
(`GraphTools`).

So a distance of 0 is right, and the values are equal in every environment, exactly for pairs of trees that
are not alike or that agree (`compareGraph_sound_iff`): in operators, names and types, and in the order of
operands wherever it counts. The trees are those that are handed to the comparison, whatever was done to them
before; what a distance other than 0 says is not covered.
-/

namespace Assure

open Assure.Library

/-! ## The comparison -/

/-- **What `networkx` does**: `is_isomorphic` decides isomorphism, and
`optimize_graph_edit_distance` yields the costs of some edit paths. -/
structure GraphTools where
  isIsomorphic : LabelledGraph (List Nat) KqueryNode → LabelledGraph (List Nat) KqueryNode →
    (KqueryNode → KqueryNode → Bool) → Bool
  isIsomorphic_iff : ∀ G H nodeMatch,
    isIsomorphic G H nodeMatch = true ↔ LabelledGraph.Isomorphic G H nodeMatch
  optimizeGraphEditDistance : LabelledGraph (List Nat) KqueryNode → LabelledGraph (List Nat) KqueryNode →
    (KqueryNode → KqueryNode → Bool) → List Nat
  yields : ∀ G H nodeMatch, optimizeGraphEditDistance G H nodeMatch ≠ []
  costs : ∀ G H nodeMatch, ∀ ged ∈ optimizeGraphEditDistance G H nodeMatch,
    ∃ pairs, LabelledGraph.IsEditPath G H pairs ∧ ged = LabelledGraph.editCost G H nodeMatch pairs

/-- The matcher of a comparison on nodes: it looks at nothing but their labels. -/
def Comparison.matcher (cmp : Comparison) (node1 node2 : KqueryNode) : Bool :=
  cmp.matchNodes node1.label node2.label

/-- **`compare_graph_optimize_edit_distance`**: the last of the first `max_iterations` distances, unless
the graphs are isomorphic. -/
def Comparison.compareGraphOptimizeEditDistance (cmp : Comparison) (tools : GraphTools)
    (G1 G2 : LabelledGraph (List Nat) KqueryNode) (maxIterations : Nat) : Nat :=
  if G1.nodes.length = G2.nodes.length ∧ tools.isIsomorphic G1 G2 cmp.matcher = true then 0
  else (((tools.optimizeGraphEditDistance G1 G2 cmp.matcher).take (max 1 maxIterations)).getLast?).getD 0

/-- **A distance of 0 means isomorphic graphs**, and nothing else does. -/
theorem compareGraph_eq_zero_iff (cmp : Comparison) (tools : GraphTools)
    (G1 G2 : LabelledGraph (List Nat) KqueryNode) (maxIterations : Nat) :
    cmp.compareGraphOptimizeEditDistance tools G1 G2 maxIterations = 0 ↔
      LabelledGraph.Isomorphic G1 G2 cmp.matcher := by
  unfold Comparison.compareGraphOptimizeEditDistance
  constructor
  · intro h
    split at h
    · rename_i hiso
      exact (tools.isIsomorphic_iff _ _ _).mp hiso.2
    · have hne : (tools.optimizeGraphEditDistance G1 G2 cmp.matcher).take (max 1 maxIterations) ≠ [] := by
        intro hnil
        rcases List.take_eq_nil_iff.mp hnil with hzero | hnone
        · omega
        · exact tools.yields G1 G2 cmp.matcher hnone
      rw [List.getLast?_eq_some_getLast hne, Option.getD_some] at h
      have hmem := List.mem_of_mem_take (List.getLast_mem hne)
      obtain ⟨pairs, hpath, hcost⟩ := tools.costs G1 G2 cmp.matcher _ hmem
      exact ⟨pairs, hpath.isomorphic (hcost ▸ h)⟩
  · intro h
    rw [if_pos ⟨h.length_eq, (tools.isIsomorphic_iff _ _ _).mpr h⟩]

/-! ## Operators that do not care for the order of their operands -/

/-- **The operators whose operands may stand in any order.** -/
def KqueryNode.Commutes (node : KqueryNode) : Prop := node.label ∈ ["Add", "Mul", "And", "Or", "Xor", "Eq", "Ne"]

instance (node : KqueryNode) : Decidable node.Commutes := inferInstanceAs (Decidable (_ ∈ _))

/-- With three operands or more a commutative operator computes nothing. -/
theorem interpret_invalid (env : String → Nat → BitVec 8) {node : KqueryNode} (h : node.Commutes) {us : List Value}
    (hthree : 3 ≤ us.length) : interpret env node us = .invalid := by
  obtain ⟨label, type⟩ := node
  simp only [KqueryNode.Commutes, List.mem_cons, List.not_mem_nil, or_false] at h
  rcases us with _ | ⟨x, _ | ⟨y, _ | ⟨z, _ | ⟨w, us⟩⟩⟩⟩
  · exact absurd hthree (by decide)
  · exact absurd (show 3 ≤ 1 from hthree) (by decide)
  · exact absurd (show 3 ≤ 2 from hthree) (by decide)
  · rcases h with rfl | rfl | rfl | rfl | rfl | rfl | rfl <;> rfl
  · rcases h with rfl | rfl | rfl | rfl | rfl | rfl | rfl <;> rfl

/-- A commutative operator computes the same from its operands in any order; with another number of operands than two
it computes nothing. -/
theorem interpret_perm (env : String → Nat → BitVec 8) {node : KqueryNode} (h : node.Commutes) {vs ws : List Value}
    (hperm : vs.Perm ws) : interpret env node vs = interpret env node ws := by
  rcases Nat.lt_or_ge vs.length 3 with hfew | hthree
  · rcases vs with _ | ⟨a, _ | ⟨b, _ | ⟨c, vs⟩⟩⟩
    · rw [hperm.nil_eq]
    · rw [List.singleton_perm.mp hperm]
    · rcases List.pair_perm.mp hperm with rfl | rfl
      · rfl
      · exact interpret_comm env h a b
    · simp only [List.length_cons] at hfew
      omega
  · rw [interpret_invalid env h hthree, interpret_invalid env h (hperm.length_eq ▸ hthree)]

/-! ## What a distance of 0 says -/

/-- **The expressions agree**: they have the same operators, names, numbers and widths, and the same operands in the
same order, except below commutative operators. -/
def Kquery.Agrees : Kquery → Kquery → Prop := RoseTree.SameUpTo KqueryNode.Commutes

/-- Expressions that agree have the same value in every environment. -/
theorem Kquery.Agrees.eval_eq {t1 t2 : Kquery} (h : t1.Agrees t2) (env : String → Nat → BitVec 8) :
    t1.eval env = t2.eval env := RoseTree.SameUpTo.fold_eq h fun hcommutes hperm => interpret_perm env hcommutes hperm

/-- **A distance of 0 is right**: operators, widths and the order of operands are respected, and the expressions have the
same value in every environment. -/
def Comparison.ZeroRight (cmp : Comparison) (tools : GraphTools) (maxIterations : Nat) (t1 t2 : Kquery) : Prop :=
  cmp.compareGraphOptimizeEditDistance tools t1.graph t2.graph maxIterations = 0 →
    t1.Agrees t2 ∧ ∀ env, t1.eval env = t2.eval env

/-- **When a distance of 0 is right.** The comparison does not see the order of operands, the types, and what `matchNodes`
lets stand for each other. It is right exactly if the trees differ in something else (they are not `Alike`), or if they
do not differ in these either, the order below commutative operators apart. -/
theorem compareGraph_sound_iff (cmp : Comparison) (tools : GraphTools) (maxIterations : Nat) (t1 t2 : Kquery) :
    cmp.ZeroRight tools maxIterations t1 t2 ↔ (RoseTree.Alike cmp.matcher t1 t2 → t1.Agrees t2) := by
  rw [Comparison.ZeroRight, compareGraph_eq_zero_iff, RoseTree.isomorphic_iff_alike]
  exact forall_congr' fun _ => and_iff_left_of_imp Kquery.Agrees.eval_eq

/-! ## Small expressions -/

/-- An exact isomorphism test, and the distance of deleting and inserting everything. -/
def GraphTools.exact : GraphTools where
  isIsomorphic G H nodeMatch := decide (LabelledGraph.Isomorphic G H nodeMatch)
  isIsomorphic_iff _ _ _ := decide_eq_true_iff
  optimizeGraphEditDistance G H nodeMatch := [LabelledGraph.editCost G H nodeMatch []]
  yields _ _ _ := List.cons_ne_nil _ _
  costs G H _ _ hged := ⟨[], LabelledGraph.isEditPath_nil G H, List.mem_singleton.mp hged⟩

/-- A node with a type. -/
def typed (label type : String) (operands : List Kquery) : Kquery := .node ⟨label, some type⟩ operands

/-- A number or a name. -/
def atom (label : String) : Kquery := .node ⟨label, none⟩ []

/-- The value of an argument. -/
def argument (type name : String) : Kquery := typed "ReadLSB" type [atom "0", atom name]

/-- The comparison of a function whose two arguments keep their places. -/
def keptInPlace : Comparison where
  charClass := .ascii
  fieldMap := ⟨[("f", ⟨[("0", "0"), ("1", "1")], by decide⟩)], by simp⟩
  functionName := "f"
  cIsTarget := true
  cDirectoryName := "f/ret_value"
  rustDirectoryName := "f/ret_value"
  onlyConsiderStruct := false

/-- The nodes of two operations on two arguments, the operands swapped. -/
def swapped : List (List Nat × List Nat) :=
  [([], []), ([0], [1]), ([0, 0], [1, 0]), ([0, 1], [1, 1]), ([1], [0]), ([1, 0], [0, 0]),
    ([1, 1], [0, 1])]

/-- Distance 0 is proof of equal values. -/
def Comparison.SoundOn (cmp : Comparison) (tools : GraphTools) (t1 t2 : Kquery) : Prop :=
  cmp.compareGraphOptimizeEditDistance tools t1.graph t2.graph 1 = 0 →
    ∀ env, Kquery.eval env t1 = Kquery.eval env t2

/-- The comparison takes a subtraction for the opposite one, an arithmetic shift for a logical one and
an extension to 16 bits for one to 32. -/
theorem compareGraph_unsound :
    ¬ keptInPlace.SoundOn .exact
      (typed "Sub" "w32" [argument "w32" "arg_value_0", argument "w32" "arg_value_1"])
      (typed "Sub" "w32" [argument "w32" "arg_value_1", argument "w32" "arg_value_0"]) ∧
    ¬ keptInPlace.SoundOn .exact
      (typed "AShr" "w8" [argument "w8" "arg_value_0", atom "1"])
      (typed "LShr" "w8" [argument "w8" "arg_value_0", atom "1"]) ∧
    ¬ keptInPlace.SoundOn .exact
      (typed "ZExt" "w16" [argument "w8" "arg_value_0"])
      (typed "ZExt" "w32" [argument "w8" "arg_value_0"]) := by
  -- the first argument is 0x80808080, the second 0
  let env : String → Nat → BitVec 8 := fun name _ => if name = "arg_value_0" then 128 else 0
  refine ⟨?_, ?_, ?_⟩
  · intro h
    have hvalue := congrArg (Value.toBits 32) (h ((compareGraph_eq_zero_iff _ _ _ _ _).mpr
      ⟨swapped, by decide +kernel⟩) env)
    revert hvalue
    decide +kernel
  · intro h
    have hvalue := congrArg (Value.toBits 8) (h ((compareGraph_eq_zero_iff _ _ _ _ _).mpr
      ⟨[([], []), ([0], [0]), ([0, 0], [0, 0]), ([0, 1], [0, 1]), ([1], [1])], by decide +kernel⟩) env)
    revert hvalue
    decide +kernel
  · intro h
    have hvalue := congrArg (Value.toBits 16) (h ((compareGraph_eq_zero_iff _ _ _ _ _).mpr
      ⟨[([], []), ([0], [0]), ([0, 0], [0, 0]), ([0, 1], [0, 1])], by decide +kernel⟩) env)
    revert hvalue
    decide +kernel

end Assure
