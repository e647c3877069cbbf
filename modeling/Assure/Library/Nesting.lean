import Mathlib.Tactic.Common

/-!
# Depths of nesting

A text is a row of pieces, each with its length and the change of depth at its end. `depthsBefore` has the
depth at each character, and `blockEnd?` the place where a block ends: the first one after its beginning at
which the depth is that of the beginning again.
-/

namespace Assure.Library

/-- The depth after a row of pieces. -/
def depthAfter (depth : Int) : List (Nat × Int) → Int
  | [] => depth
  | piece :: pieces => depthAfter (depth + piece.2) pieces

/-- **The depth at each character** of a row of pieces. -/
def depthsBefore (depth : Int) : List (Nat × Int) → List Int
  | [] => []
  | piece :: pieces => List.replicate piece.1 depth ++ depthsBefore (depth + piece.2) pieces

/-- The depth behind two stretches is reached by way of the depth between them. -/
theorem depthAfter_append (depth : Int) (pieces pieces' : List (Nat × Int)) :
    depthAfter depth (pieces ++ pieces') = depthAfter (depthAfter depth pieces) pieces' := by
  induction pieces generalizing depth with
  | nil => rfl
  | cons piece pieces ih => exact ih (depth + piece.2)

/-- The depths in a second stretch start from the depth behind the first. -/
theorem depthsBefore_append (depth : Int) (pieces pieces' : List (Nat × Int)) :
    depthsBefore depth (pieces ++ pieces') =
      depthsBefore depth pieces ++ depthsBefore (depthAfter depth pieces) pieces' := by
  induction pieces generalizing depth with
  | nil => rfl
  | cons piece pieces ih => rw [List.cons_append, depthsBefore, depthsBefore, depthAfter, ih, List.append_assoc]

/-- Starting deeper, one ends deeper by as much. -/
theorem depthAfter_shift (depth d : Int) (pieces : List (Nat × Int)) :
    depthAfter (depth + d) pieces = depthAfter depth pieces + d := by
  induction pieces generalizing depth with
  | nil => rfl
  | cons piece pieces ih => rw [depthAfter, depthAfter, Int.add_right_comm, ih]

/-- Starting deeper, every depth is greater by as much. -/
theorem depthsBefore_shift (depth d : Int) (pieces : List (Nat × Int)) :
    depthsBefore (depth + d) pieces = (depthsBefore depth pieces).map (· + d) := by
  induction pieces generalizing depth with
  | nil => rfl
  | cons piece pieces ih =>
    rw [depthsBefore, depthsBefore, Int.add_right_comm, ih, List.map_append, List.map_replicate]

/-- How many depths there are does not depend on the first. -/
theorem depthsBefore_length (depth : Int) (pieces : List (Nat × Int)) :
    (depthsBefore depth pieces).length = (depthsBefore 0 pieces).length := by
  rw [← Int.zero_add depth, depthsBefore_shift, List.length_map]

/-- The first depth, where no piece is empty. -/
theorem depthsBefore_head (depth : Int) {pieces : List (Nat × Int)} (h : ∀ piece ∈ pieces, 0 < piece.1) :
    (depthsBefore depth pieces ++ [depthAfter depth pieces]).head? = some depth := by
  cases pieces with
  | nil => rfl
  | cons piece pieces =>
    obtain ⟨n, hn⟩ : ∃ n, piece.1 = n + 1 := ⟨piece.1 - 1, by have := h piece List.mem_cons_self; omega⟩
    rw [depthsBefore, hn]
    rfl

/-- Pieces that do not change the depth. -/
theorem depthsBefore_flat (depth : Int) : ∀ {pieces : List (Nat × Int)}, (∀ piece ∈ pieces, piece.2 = 0) →
    depthAfter depth pieces = depth ∧
      depthsBefore depth pieces = List.replicate (depthsBefore 0 pieces).length depth
  | [], _ => ⟨rfl, rfl⟩
  | piece :: pieces, h => by
    obtain ⟨hafter, hbefore⟩ := depthsBefore_flat depth fun p hp => h p (List.mem_cons_of_mem piece hp)
    rw [depthAfter, depthsBefore, depthsBefore, h piece List.mem_cons_self, Int.add_zero, Int.add_zero, hbefore,
      List.length_append, List.length_replicate, List.replicate_append_replicate]
    exact ⟨hafter, rfl⟩

/-- **The end of the block that begins at a place.** -/
def blockEnd? (depths : List Int) (start : Nat) : Option Nat :=
  ((depths.drop (start + 1)).findIdx? fun depth => some depth = depths[start]?).map (start + 1 + ·)

/-- The end of a block is searched behind its start alone. -/
theorem blockEnd?_append (before after : List Int) (depth : Int) :
    blockEnd? (before ++ depth :: after) before.length =
      (after.findIdx? (· = depth)).map (before.length + 1 + ·) := by
  have hdepth : (before ++ depth :: after)[before.length]? = some depth := by simp
  have hdrop : (before ++ depth :: after).drop (before.length + 1) = after := by
    rw [← List.drop_drop, List.drop_left]
    rfl
  rw [blockEnd?, hdepth, hdrop]
  simp only [Option.some.injEq]

/-- What follows the end of a block does not count. -/
theorem findIdx?_append_hit {α : Type*} {q : α → Bool} {a : α} (ha : q a = true) (before after : List α) :
    (before ++ a :: after).findIdx? q = (before ++ [a]).findIdx? q := by
  rw [List.findIdx?_append, List.findIdx?_append, List.findIdx?_cons, List.findIdx?_cons, if_pos ha, if_pos ha]

/-- A search passes over a run of entries that are not looked for. -/
theorem findIdx?_replicate_append {α : Type*} {q : α → Bool} {a : α} (ha : q a = false) (rest : List α) :
    ∀ n, (List.replicate n a ++ rest).findIdx? q = (rest.findIdx? q).map (n + ·)
  | 0 => by simp
  | n + 1 => by
    rw [List.replicate_succ, List.cons_append, List.findIdx?_cons, ha, if_neg Bool.false_ne_true,
      findIdx?_replicate_append ha rest n, Option.map_map]
    congr 1
    funext i
    exact (Nat.add_right_comm n i 1)

/-- **The end of a block in a row of pieces**, whatever follows it. -/
theorem blockEnd?_pieces {front block : List (Nat × Int)} {depth : Int} {rest : List Int}
    (hhead : rest.head? = some (depthAfter (depthAfter depth front + 1) block))
    (hstop : rest.tail = [] ∨ depthAfter 1 block = 0) :
    blockEnd? (depthsBefore depth (front ++ (1, 1) :: block) ++ rest) (depthsBefore depth front).length =
      ((depthsBefore 1 block ++ [depthAfter 1 block]).findIdx? (· = 0)).map
        ((depthsBefore depth front).length + 1 + ·) := by
  obtain ⟨more, rfl⟩ := List.head?_eq_some_iff.mp hhead
  rw [depthsBefore_append, List.append_assoc, depthsBefore]
  refine (blockEnd?_append _ _ _).trans (congrArg _ ?_)
  rw [Int.add_comm (depthAfter depth front) 1, depthAfter_shift, depthsBefore_shift]
  have hshift : ((depthsBefore 1 block).map (· + depthAfter depth front) ++
      [depthAfter 1 block + depthAfter depth front]).findIdx? (· = depthAfter depth front) =
        (depthsBefore 1 block ++ [depthAfter 1 block]).findIdx? (· = 0) := by
    have hmap : (depthsBefore 1 block).map (· + depthAfter depth front) ++
        [depthAfter 1 block + depthAfter depth front] =
          (depthsBefore 1 block ++ [depthAfter 1 block]).map (· + depthAfter depth front) := by simp
    rw [hmap, List.findIdx?_map]
    congr 1
    funext d
    exact decide_eq_decide.mpr (show d + depthAfter depth front = depthAfter depth front ↔ d = 0 by omega)
  refine Eq.trans ?_ hshift
  rcases hstop with hmore | hclosed
  · rw [show more = [] from hmore]
    rfl
  · exact findIdx?_append_hit (by simp [hclosed]) _ _

end Assure.Library
