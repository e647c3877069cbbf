import Assure.Library.EditDistance
import Assure.Functions.SyntaxTree
import Mathlib.Algebra.Group.Nat.Defs

/-!
# Fetching a target function

The function that a file is about is found by its name: of all functions of the file the one whose name is closest to
the wanted name, the first one among several. `editDistance` fills a table row by row with the distances of the
beginnings of the two names; its last entry is their distance (`editDistance_eq`).

What is proved is for names of any length: the table holds the least number of edits, and the search
takes the first of the closest functions. How a declarator of C++ comes by its name is a parameter.
-/

namespace Assure

open Assure.Library

/-! ## The distance of two names -/

section EditDistance

variable {α : Type*} [DecidableEq α]

/-- The inner loop for the character `c` of the first name: `left` is the entry before, `above` the rest of the row
before, from the entry over it on. -/
def fillRow (c : α) (left : Nat) : List α → List Nat → List Nat
  | b :: bs, diagonal :: above :: row =>
    let entry := min (min (above + 1) (left + 1)) (diagonal + if c = b then 0 else 1)
    entry :: fillRow c entry bs (above :: row)
  | _, _ => []

/-- The rows of the table, the last one first. -/
def editRows (s2 : List α) : List α → List (List Nat) → List (List Nat)
  | [], rows => rows
  | c :: s1, rows => editRows s2 s1 ((rows.length :: fillRow c rows.length s2 (rows.head?.getD [])) :: rows)

/-- **`edit_distance`**: the last entry of the table. -/
def editDistance (s1 s2 : List α) : Nat :=
  (((editRows s2 s1 [List.range (s2.length + 1)]).head?.getD []).getLast?).getD 0

/-- The distances of a text to the beginnings of another one, of which `seen` is reversed. -/
def distances (reversed seen : List α) : List α → List Nat
  | [] => [levenshtein reversed seen]
  | b :: bs => levenshtein reversed seen :: distances reversed (b :: seen) bs

/-- A row of the table always has an entry. -/
theorem distances_ne_nil (reversed seen bs : List α) : distances reversed seen bs ≠ [] := by
  cases bs <;> exact List.cons_ne_nil _ _

/-- The last entry of a row is the distance to the whole of the second text. -/
theorem getLast?_distances (reversed seen bs : List α) :
    (distances reversed seen bs).getLast? = some (levenshtein reversed (bs.reverse ++ seen)) := by
  induction bs generalizing seen with
  | nil => rfl
  | cons b bs ih =>
    rw [distances, List.getLast?_cons_of_ne_nil (distances_ne_nil _ _ _), ih, List.reverse_cons, List.append_assoc]
    rfl

/-- The first row. -/
theorem distances_nil (bs : List α) : distances [] [] bs = List.range (bs.length + 1) := by
  have hfrom : ∀ seen : List α, distances [] seen bs = List.range' seen.length (bs.length + 1) := by
    induction bs with
    | nil => exact fun seen => congrArg (fun n => [n]) (levenshtein_nil_left seen)
    | cons b bs ih =>
      intro seen
      rw [distances, ih, levenshtein_nil_left, List.length_cons, List.length_cons,
        List.range'_succ (n := bs.length + 1)]
  rw [hfrom [], List.length_nil, List.range_eq_range']

/-- **A row is filled with distances** if the row before it is. -/
theorem fillRow_distances (c : α) (reversed seen bs : List α) :
    levenshtein (c :: reversed) seen :: fillRow c (levenshtein (c :: reversed) seen) bs (distances reversed seen bs) =
      distances (c :: reversed) seen bs := by
  induction bs generalizing seen with
  | nil => rfl
  | cons b bs ih =>
    obtain ⟨row, hrow⟩ : ∃ row, distances reversed (b :: seen) bs = levenshtein reversed (b :: seen) :: row := by
      cases bs <;> exact ⟨_, rfl⟩
    rw [distances, distances, hrow, fillRow, ← levenshtein_cons_cons, ← hrow, ih]

/-- The loop over the first text keeps the newest row on top, and that row holds the distances of
what was read so far. Its last entry is the result in the end. -/
theorem editRows_head (s2 s1 reversed : List α) (rows : List (List Nat))
    (hrows : rows.length = reversed.length + 1) (hhead : rows.head? = some (distances reversed [] s2)) :
    (editRows s2 s1 rows).head? = some (distances (s1.reverse ++ reversed) [] s2) := by
  induction s1 generalizing reversed rows with
  | nil => exact hhead
  | cons c s1 ih =>
    rw [editRows, hhead, Option.getD_some, hrows]
    have hlength : levenshtein (c :: reversed) [] = reversed.length + 1 := levenshtein_nil_right _
    rw [← hlength, fillRow_distances, List.reverse_cons, List.append_assoc]
    exact ih (c :: reversed) _ (by rw [List.length_cons, hrows, List.length_cons]) rfl

/-- **What the table comes to.** -/
theorem editDistance_eq (s1 s2 : List α) : editDistance s1 s2 = levenshtein s1 s2 := by
  have hhead := editRows_head s2 s1 [] [List.range (s2.length + 1)] rfl (congrArg some (distances_nil s2).symm)
  rw [editDistance, hhead, Option.getD_some, getLast?_distances, Option.getD_some, List.append_nil, List.append_nil,
    levenshtein_reverse]

end EditDistance

/-! ## The search -/

/-- What a search reads at a node: nothing, the name of a function, or that it is not to look into the node. -/
inductive FunctionReading
  | nothing
  | name (name : String)
  | leave

/-- `best_name`, `best_distance` and `best_node` -/
structure BestTarget where
  name : String
  distance : Nat
  node : Option SyntaxNode

/-- `sys.maxsize` -/
def maxsize : Nat := 2 ^ 63 - 1

/-- Nothing found. -/
def BestTarget.start : BestTarget := ⟨"", maxsize, none⟩

/-- A function that is closer to the wanted name takes the place of the best one. -/
def BestTarget.offer (wanted : String) (best : BestTarget) (candidate : String × SyntaxNode) : BestTarget :=
  let dist := editDistance candidate.1.toList wanted.toList
  if dist < best.distance then ⟨candidate.1, dist, some candidate.2⟩ else best

section Visit

variable (read : SyntaxNode → FunctionReading)

mutual

/-- **`visit`** -/
def visitTargets (wanted : String) (best : BestTarget) : SyntaxNode → BestTarget
  | .node field type startByte endByte children =>
    match read (.node field type startByte endByte children) with
    | .nothing => visitTargetsIn wanted best children
    | .name name => visitTargetsIn wanted (best.offer wanted (name, .node field type startByte endByte children)) children
    | .leave => best

/-- The loop of `visit` over the children. -/
def visitTargetsIn (wanted : String) (best : BestTarget) : List SyntaxNode → BestTarget
  | [] => best
  | child :: children => visitTargetsIn wanted (visitTargets wanted best child) children

end

mutual

/-- **The functions of a tree** with their names, as the search comes to them. -/
def functionsIn : SyntaxNode → List (String × SyntaxNode)
  | .node field type startByte endByte children =>
    match read (.node field type startByte endByte children) with
    | .nothing => functionsInAll children
    | .name name => (name, .node field type startByte endByte children) :: functionsInAll children
    | .leave => []

/-- The functions of some trees. -/
def functionsInAll : List SyntaxNode → List (String × SyntaxNode)
  | [] => []
  | child :: children => functionsIn child ++ functionsInAll children

end

end Visit

/-- What `find_target_rust_function` reads at a node. -/
def rustReading (src : List Char) (node : SyntaxNode) : FunctionReading :=
  if node.type = "function_item" then
    match node.childByFieldName "name" with
    | some name => .name (name.text src)
    | none => .nothing
  else .nothing

/-- What `find_target_c_function` reads at a node. -/
def cReading (src : List Char) (node : SyntaxNode) : FunctionReading :=
  if node.type = "function_definition" then
    match (node.childByFieldName "declarator").bind SyntaxNode.findIdentifier with
    | some name => .name (name.text src)
    | none => .leave
  else .nothing

/-- What `find_target_cpp_function` reads at a node. -/
def cppReading (src : List Char) (node : SyntaxNode) : FunctionReading :=
  if node.type = "function_definition" ∨ node.type = "constructor_or_destructor_definition" then
    match (node.childByFieldName "declarator").bind (extractCppCallableName src) with
    | some name => if name = "" then .nothing else .name name
    | none => .nothing
  else .nothing

/-- **`find_target_rust_function`** -/
def findTargetRustFunction (src : List Char) (root : SyntaxNode) (fileName : String) : String :=
  (visitTargets (rustReading src) fileName .start root).name

/-- **`find_target_rust_function_node`** -/
def findTargetRustFunctionNode (src : List Char) (root : SyntaxNode) (fileName : String) :
    String × Option SyntaxNode :=
  let best := visitTargets (rustReading src) fileName .start root
  (best.name, best.node)

/-- **`find_target_c_function`** -/
def findTargetCFunction (src : List Char) (root : SyntaxNode) (fileName : String) : String :=
  (visitTargets (cReading src) fileName .start root).name

/-- **`find_target_cpp_function`** -/
def findTargetCppFunction (src : List Char) (root : SyntaxNode) (fileName : String) :
    String × Option SyntaxNode :=
  let best := visitTargets (cppReading src) fileName .start root
  (best.name, best.node)

/-! ## What the search finds -/

section Found

variable {read : SyntaxNode → FunctionReading} {wanted : String}

mutual

/-- The search goes through the functions of the tree. -/
theorem visitTargets_eq (best : BestTarget) : ∀ node : SyntaxNode,
    visitTargets read wanted best node = (functionsIn read node).foldl (BestTarget.offer wanted) best
  | .node field type startByte endByte children => by
    rw [visitTargets, functionsIn]
    split
    · exact visitTargetsIn_eq best children
    · exact visitTargetsIn_eq _ children
    · rfl

/-- Visiting a list of trees offers their functions one by one, in the order of the source. -/
theorem visitTargetsIn_eq (best : BestTarget) : ∀ nodes : List SyntaxNode,
    visitTargetsIn read wanted best nodes = (functionsInAll read nodes).foldl (BestTarget.offer wanted) best
  | [] => rfl
  | child :: children => by
    rw [visitTargetsIn, functionsInAll, List.foldl_append, visitTargets_eq best child, visitTargetsIn_eq _ children]

end

/-- **The first of the closest functions**, where one is closer than what was found before. -/
theorem foldl_offer (wanted : String) (candidates : List (String × SyntaxNode)) (best : BestTarget) :
    candidates.foldl (BestTarget.offer wanted) best = best ∧
        (∀ c ∈ candidates, best.distance ≤ editDistance c.1.toList wanted.toList) ∨
      ∃ front c back, candidates = front ++ c :: back ∧
        editDistance c.1.toList wanted.toList < best.distance ∧
        (∀ d ∈ front, editDistance c.1.toList wanted.toList < editDistance d.1.toList wanted.toList) ∧
        (∀ d ∈ back, editDistance c.1.toList wanted.toList ≤ editDistance d.1.toList wanted.toList) ∧
        candidates.foldl (BestTarget.offer wanted) best =
          ⟨c.1, editDistance c.1.toList wanted.toList, some c.2⟩ := by
  induction candidates generalizing best with
  | nil => exact .inl ⟨rfl, List.forall_mem_nil _⟩
  | cons c candidates ih =>
    rw [List.foldl_cons, BestTarget.offer]
    split
    · rename_i hcloser
      rcases ih ⟨c.1, editDistance c.1.toList wanted.toList, some c.2⟩ with ⟨hsame, hfar⟩ | hfound
      · exact .inr ⟨[], c, candidates, rfl, hcloser, List.forall_mem_nil _, hfar, hsame⟩
      · obtain ⟨front, d, back, rfl, hd, hfront, hback, hfold⟩ := hfound
        exact .inr ⟨c :: front, d, back, rfl, hd.trans hcloser, List.forall_mem_cons.mpr ⟨hd, hfront⟩, hback, hfold⟩
    · rename_i hfarther
      rcases ih best with ⟨hsame, hfar⟩ | hfound
      · exact .inl ⟨hsame, List.forall_mem_cons.mpr ⟨Nat.le_of_not_lt hfarther, hfar⟩⟩
      · obtain ⟨front, d, back, rfl, hd, hfront, hback, hfold⟩ := hfound
        refine .inr ⟨c :: front, d, back, rfl, hd, List.forall_mem_cons.mpr ⟨?_, hfront⟩, hback, hfold⟩
        exact hd.trans_le (Nat.le_of_not_lt hfarther)

/-- **A function of the wanted name is found** if there is one. -/
theorem visitTargets_exact {root : SyntaxNode} (h : wanted ∈ (functionsIn read root).map Prod.fst) :
    (visitTargets read wanted .start root).name = wanted ∧
      ∃ node, (visitTargets read wanted .start root).node = some node ∧ (wanted, node) ∈ functionsIn read root := by
  obtain ⟨⟨name, node⟩, hmem, rfl⟩ := List.mem_map.mp h
  have hzero : editDistance name.toList name.toList = 0 := by rw [editDistance_eq, levenshtein_eq_zero]
  rw [visitTargets_eq]
  rcases foldl_offer name (functionsIn read root) .start with ⟨-, hfar⟩ | hfound
  · have hlarge := hfar _ hmem
    rw [hzero] at hlarge
    exact absurd hlarge (by decide)
  · obtain ⟨front, c, back, hsplit, -, hfront, hback, hfold⟩ := hfound
    rw [hfold]
    have hleast : editDistance c.1.toList name.toList ≤ 0 := by
      rw [hsplit, List.mem_append, List.mem_cons] at hmem
      rcases hmem with hmem | rfl | hmem
      · exact (hfront _ hmem).le.trans_eq hzero
      · exact hzero.le
      · exact (hback _ hmem).trans_eq hzero
    have hname : c.1 = name := by
      rw [Nat.le_zero, editDistance_eq, levenshtein_eq_zero] at hleast
      exact String.toList_inj.mp hleast
    refine ⟨hname, c.2, rfl, ?_⟩
    rw [hsplit, ← hname]
    exact List.mem_append_right _ List.mem_cons_self

end Found

/-- **The distance is the least number of edits**, so it is a metric, and a search finds a function of the wanted name
whenever there is one among those it looks at. -/
theorem editDistance_spec {α : Type} [DecidableEq α] :
    (∀ s1 s2 : List α, IsLeast {n | Edits n s1 s2} (editDistance s1 s2)) ∧
    (∀ s1 s2 : List α, editDistance s1 s2 = 0 ↔ s1 = s2) ∧
    (∀ s1 s2 : List α, editDistance s1 s2 = editDistance s2 s1) ∧
    (∀ s1 s2 s3 : List α, editDistance s1 s3 ≤ editDistance s1 s2 + editDistance s2 s3) ∧
    (∀ src root wanted, wanted ∈ (functionsIn (rustReading src) root).map Prod.fst →
      findTargetRustFunction src root wanted = wanted ∧
      ∃ node, findTargetRustFunctionNode src root wanted = (wanted, some node) ∧
        (wanted, node) ∈ functionsIn (rustReading src) root) ∧
    (∀ src root wanted, wanted ∈ (functionsIn (cReading src) root).map Prod.fst →
      findTargetCFunction src root wanted = wanted) ∧
    ∀ src root wanted, wanted ∈ (functionsIn (cppReading src) root).map Prod.fst →
      ∃ node, findTargetCppFunction src root wanted = (wanted, some node) ∧
        (wanted, node) ∈ functionsIn (cppReading src) root := by
  simp only [editDistance_eq]
  refine ⟨isLeast_levenshtein, fun _ _ => levenshtein_eq_zero, levenshtein_comm, levenshtein_triangle, ?_, ?_, ?_⟩
  · intro src root wanted h
    obtain ⟨hname, node, hnode, hmem⟩ := visitTargets_exact h
    exact ⟨hname, node, Prod.ext hname hnode, hmem⟩
  · intro src root wanted h
    exact (visitTargets_exact h).1
  · intro src root wanted h
    obtain ⟨hname, node, hnode, hmem⟩ := visitTargets_exact h
    exact ⟨node, Prod.ext hname hnode, hmem⟩

end Assure
