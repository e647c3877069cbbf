import Assure.Comparison.Distance
import Assure.Library.MaxMin

/-!
# The distance of two lists of graphs

The values that an argument can have at the end of a function are a list of graphs on each side.
`calculate_distance` takes for every graph of the one list the least distance to a graph of the other one
with as many nodes, 1000 where there is none, and answers the greatest of these. It stops at the first
1000, since nothing is greater.

The lists are any two that are not empty. The distance of two graphs is a parameter with the
documented behaviour; its own soundness is the subject of `Assure.Comparison.Distance`.
-/

namespace Assure

open Assure.Library

/-- A graph that was read from a dot file. -/
abbrev ExpressionGraph := LabelledGraph (List Nat) KqueryNode

namespace Comparison

/-- `current_best` after the files of the other side. -/
def currentBest (cmp : Comparison) (tools : GraphTools) (G1 : ExpressionGraph) (graphs : List ExpressionGraph) :
    Nat :=
  graphs.foldl (fun currentBest G2 =>
    if G1.nodes.length = G2.nodes.length then
      min currentBest (cmp.compareGraphOptimizeEditDistance tools G1 G2 1)
    else currentBest) 1000

/-- **`calculate_distance`**, from a best distance on. -/
def calculateDistanceFrom (cmp : Comparison) (tools : GraphTools) (graphsB : List ExpressionGraph) :
    Option Nat → List ExpressionGraph → Option Nat
  | bestDistance, [] => bestDistance
  | bestDistance, G1 :: graphsA =>
    let currentBest := cmp.currentBest tools G1 graphsB
    let bestDistance := match bestDistance with
      | none => currentBest
      | some bestDistance => max bestDistance currentBest
    if currentBest = 1000 then some bestDistance
    else calculateDistanceFrom cmp tools graphsB (some bestDistance) graphsA

/-- **`calculate_distance`** -/
def calculateDistance (cmp : Comparison) (tools : GraphTools) (graphsA graphsB : List ExpressionGraph) :
    Option Nat :=
  cmp.calculateDistanceFrom tools graphsB none graphsA

/-! ## What it computes -/

/-- **The distance of two graphs**, at most 1000. -/
def graphDistance (cmp : Comparison) (tools : GraphTools) (G1 G2 : ExpressionGraph) : Nat :=
  if G1.nodes.length = G2.nodes.length then min 1000 (cmp.compareGraphOptimizeEditDistance tools G1 G2 1)
  else 1000

/-- Every distance between graphs is at most 1000, the value the loop starts its least one from, so
starting there loses none. -/
theorem graphDistance_le (cmp : Comparison) (tools : GraphTools) (G1 G2 : ExpressionGraph) :
    cmp.graphDistance tools G1 G2 ≤ 1000 := by
  unfold graphDistance
  split
  · exact min_le_left _ _
  · exact le_rfl

/-- Leaving out the graphs of another size does not change a minimum that starts from 1000. -/
theorem currentBest_eq (cmp : Comparison) (tools : GraphTools) (G1 : ExpressionGraph)
    (graphs : List ExpressionGraph) :
    cmp.currentBest tools G1 graphs =
      graphs.foldl (fun least G2 => min least (cmp.graphDistance tools G1 G2)) 1000 := by
  have hfrom : ∀ start, start ≤ 1000 →
      graphs.foldl (fun currentBest G2 =>
        if G1.nodes.length = G2.nodes.length then
          min currentBest (cmp.compareGraphOptimizeEditDistance tools G1 G2 1)
        else currentBest) start =
      graphs.foldl (fun least G2 => min least (cmp.graphDistance tools G1 G2)) start := by
    induction graphs with
    | nil => exact fun _ _ => rfl
    | cons G2 graphs ih =>
      intro start hstart
      have hpass : (if G1.nodes.length = G2.nodes.length then
            min start (cmp.compareGraphOptimizeEditDistance tools G1 G2 1) else start) =
          min start (cmp.graphDistance tools G1 G2) := by
        unfold graphDistance
        split <;> omega
      rw [List.foldl_cons, List.foldl_cons, hpass]
      exact ih _ ((min_le_left _ _).trans hstart)
  exact hfrom 1000 le_rfl

/-- The inner loop finds the least distance to any graph of the other value, although it skips
graphs by size and stops at zero. -/
theorem isLeast_currentBest (cmp : Comparison) (tools : GraphTools) (G1 H : ExpressionGraph)
    (graphs : List ExpressionGraph) :
    IsLeast {v | ∃ G2 ∈ H :: graphs, cmp.graphDistance tools G1 G2 = v}
      (cmp.currentBest tools G1 (H :: graphs)) := by
  rw [currentBest_eq]
  exact isLeast_foldl_min_of_le (cmp.graphDistance_le tools G1) H graphs

/-- The loop is a running maximum that stops at 1000. -/
theorem calculateDistanceFrom_eq (cmp : Comparison) (tools : GraphTools) (graphsB : List ExpressionGraph) :
    ∀ (graphsA : List ExpressionGraph) (bestDistance : Option Nat),
      cmp.calculateDistanceFrom tools graphsB bestDistance graphsA =
        maxUntil 1000 bestDistance (graphsA.map fun G1 => cmp.currentBest tools G1 graphsB)
  | [], _ => rfl
  | G1 :: graphsA, bestDistance => by
    simp only [calculateDistanceFrom, List.map_cons, maxUntil]
    cases bestDistance <;> simp [calculateDistanceFrom_eq cmp tools graphsB graphsA]

/-- **`calculate_distance` is the directed Hausdorff value**, the greatest of the least distances from a graph of the
one list to the other list. Neither the early end of the inner loop nor the filter by size changes it. -/
theorem calculateDistance_isDirectedHausdorff (cmp : Comparison) (tools : GraphTools)
    (G : ExpressionGraph) (graphsA : List ExpressionGraph) (H : ExpressionGraph)
    (graphsB : List ExpressionGraph) :
    ∃ distance, cmp.calculateDistance tools (G :: graphsA) (H :: graphsB) = some distance ∧
      IsDirectedHausdorff (cmp.graphDistance tools) (G :: graphsA) (H :: graphsB) distance := by
  have hcap : ∀ v ∈ (G :: graphsA).map (fun G1 => cmp.currentBest tools G1 (H :: graphsB)), v ≤ 1000 := by
    intro v hv
    obtain ⟨G1, -, rfl⟩ := List.mem_map.mp hv
    obtain ⟨⟨G2, -, hG2⟩, -⟩ := cmp.isLeast_currentBest tools G1 H graphsB
    exact hG2 ▸ cmp.graphDistance_le tools G1 G2
  obtain ⟨distance, hdistance, hgreatest⟩ := maxUntil_none _ hcap
  refine ⟨distance, (cmp.calculateDistanceFrom_eq tools (H :: graphsB) (G :: graphsA) none).trans hdistance, ?_⟩
  exact Library.IsGreatest.isDirectedHausdorff (fun G1 => cmp.isLeast_currentBest tools G1 H graphsB) hgreatest

end Comparison

end Assure
