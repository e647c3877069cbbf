import Assure.Library.Collections
import Assure.Library.Regex
import Assure.Library.Worklist
import Mathlib.Data.String.Basic
import Mathlib.Order.Interval.Finset.Nat

/-!
# Dead helpers

The C file that is validated has the function, its root, after helpers. `removeDeadHelperDefinitions`
keeps the helpers that calls lead to from the root, a call being the name of a helper with a bracket
after it in the text without comments and literals, and removes the lines of the others.

What the rest of the file refers to is more: a helper whose address is taken, or that is named in a table
outside the functions. `deadLineIndexes_iff` says which lines are removed, and
`removeDeadHelperDefinitions_iff` when these are the lines of the helpers that nothing needs, for any
relation that says what a line refers to.

Both directions are proved. That lines are the right thing to delete is part of the condition: where
a live helper shares a line with a dead one the result is wrong.
-/

namespace Assure

open Assure.Library Assure.Library.Pattern
open scoped BigOperators

/-! ## Calls in a text -/

/-- `/\*.*?\*/|//.*?$` -/
def commentPattern : Pattern Unit :=
  orElse (do lit "/*"; let _ ← lazily (many fun _ => true); lit "*/")
    (do lit "//"; let _ ← lazily (many fun _ => true); lineEnd)

/-- `"(?:\\.|[^"\\])*"`, for either kind of quote. -/
def literalPattern (quote : Char) : Pattern Unit := do
  let _ ← one (· = quote)
  star (orElse (do let _ ← one (· = '\\'); let _ ← one fun _ => true; pure ())
    (do let _ ← one fun c => c ≠ quote ∧ c ≠ '\\'; pure ()))
  let _ ← one (· = quote)
  pure ()

/-- `stripLiteralsForIdentifierSearch` -/
def stripLiteralsForIdentifierSearch (sourceCode : String) : String :=
  let withoutComments := sub commentPattern " " sourceCode
  let withoutStrings := sub (literalPattern '"') "\"\"" withoutComments
  sub (literalPattern '\'') "''" withoutStrings

/-- `\bname\s*\(` -/
def callPattern (charClass : CharClass) (identifierName : String) : Pattern Unit := do
  boundary charClass
  lit identifierName
  let _ ← many charClass.space
  lit "("

/-- **`collectReferencedIdentifiers`** -/
def collectReferencedIdentifiers (charClass : CharClass) (sourceCode : String)
    (identifierNames : List String) (currentIdentifier : Option String) : Finset String :=
  let normalizedSource := stripLiteralsForIdentifierSearch sourceCode
  (identifierNames.filter fun identifierName =>
    some identifierName ≠ currentIdentifier ∧
      found (callPattern charClass identifierName) normalizedSource).toFinset

/-! ## The functions of a file -/

/-- A function as `ctags` lists it: its name, its line, counted from one, and its last line. -/
structure FunctionTag where
  name : String
  line : Nat
  endLine : Option Nat

/-- The lines of a function, from `start` to `stop`. -/
structure FunctionRange where
  name : String
  start : Nat
  stop : Nat

/-- The lines of a range. -/
def FunctionRange.lines (r : FunctionRange) : Finset Nat := Finset.Icc r.start r.stop

/-- A line above a function that is not part of it. -/
def endsHeader (charClass : CharClass) (line : String) : Bool :=
  let previousLine := strip charClass line
  previousLine = "" || contains previousLine "#" || contains previousLine ";" || contains previousLine "\x7d"

/-- The first line of the header that ends at a line. -/
def headerStart (charClass : CharClass) (allLines : List String) : Nat → Nat
  | 0 => 0
  | n + 1 => if endsHeader charClass (allLines.getD n "") then n + 1 else headerStart charClass allLines n

/-- **`parseFunctionRanges`**, from what `ctags` says. -/
def parseFunctionRanges (charClass : CharClass) (tags : List FunctionTag) (allLines : List String) :
    List FunctionRange :=
  sortedBy FunctionRange.start <| tags.map fun tag =>
    let startIndex := tag.line - 1
    { name := tag.name
      start := headerStart charClass allLines startIndex
      stop := (tag.endLine.map (· - 1)).getD startIndex }

/-- **What the removal works on**: the lines of the file, its functions and the name of the root. -/
structure CFile where
  charClass : CharClass
  allLines : List String
  tags : List FunctionTag
  rootFunction : String

namespace CFile

/-- `functionRanges` -/
def functionRanges (f : CFile) : List FunctionRange := parseFunctionRanges f.charClass f.tags f.allLines

/-- `rootRange` -/
def rootRange (f : CFile) : Option FunctionRange := f.functionRanges.find? fun r => r.name = f.rootFunction

/-- `helperRanges`: the functions that end before the root, if there is a root and another function. -/
def helperRanges (f : CFile) : List FunctionRange :=
  if f.functionRanges.length < 2 then []
  else match f.rootRange with
    | none => []
    | some root => f.functionRanges.filter fun r => r.stop < root.start

/-- `helperNames` -/
def helperNames (f : CFile) : List String := f.helperRanges.map FunctionRange.name

/-- The text of a range. -/
def code (f : CFile) (r : FunctionRange) : String :=
  String.join ((f.allLines.take (r.stop + 1)).drop r.start)

/-- The helpers that the root calls. -/
def rootCalls (f : CFile) : Finset String :=
  match f.rootRange with
  | none => ∅
  | some root => collectReferencedIdentifiers f.charClass (f.code root) f.helperNames none

/-- The helpers that a helper calls; of two of one name the later one counts. -/
def helperCalls (f : CFile) (helperName : String) : Finset String :=
  match f.helperRanges.reverse.find? fun r => r.name = helperName with
  | none => ∅
  | some r => collectReferencedIdentifiers f.charClass (f.code r) f.helperNames (some helperName)

/-- The loop over `pendingHelpers`. -/
def reachableHelpers (f : CFile) (order : SetOrder String) : Option (Finset String) :=
  let transitive helperName := order.toList (f.helperCalls helperName)
  let pending := order.toList f.rootCalls
  (whileLoop (fun s => !s.queue.isEmpty) (Worklist.popPass transitive)
    (pending.length + ∑ h ∈ f.helperNames.toFinset, (transitive h).length) ⟨pending, ∅⟩).map Worklist.visited

/-- `deadHelperRanges` -/
def deadHelperRanges (f : CFile) (order : SetOrder String) : Option (List FunctionRange) :=
  (f.reachableHelpers order).map fun reachable => f.helperRanges.filter fun r => r.name ∉ reachable

/-- `deadLineIndexes` -/
def deadLineIndexes (f : CFile) (order : SetOrder String) : Option (Finset Nat) :=
  (f.deadHelperRanges order).map fun dead => dead.foldl (fun indexes r => indexes ∪ r.lines) ∅

/-- **`removeDeadHelperDefinitions`**: whether the file changed, and its lines. Without a root or a helper
no helper is dead. -/
def removeDeadHelperDefinitions (f : CFile) (order : SetOrder String) : Option (Bool × List String) :=
  (f.deadHelperRanges order).bind fun dead => (f.deadLineIndexes order).map fun indexes =>
    if dead = [] then (false, f.allLines)
    else (true, (f.allLines.zipIdx.filter fun line => line.2 ∉ indexes).map Prod.fst)

/-! ## What is removed -/

/-- **A chain of calls leads to a helper from the root.** -/
def Called (f : CFile) (helperName : String) : Prop :=
  ∃ h ∈ f.rootCalls, Relation.ReflTransGen (fun a b => b ∈ f.helperCalls a) h helperName

variable {f : CFile} {order : SetOrder String}

/-- Only names of helpers are collected. -/
theorem mem_helperNames_of_mem {code : String} {current : Option String} {name : String}
    (h : name ∈ collectReferencedIdentifiers f.charClass code f.helperNames current) :
    name ∈ f.helperNames := by
  rw [collectReferencedIdentifiers, List.mem_toFinset] at h
  exact (List.mem_filter.mp h).1

/-- The fixpoint is reached, and it holds exactly the helpers that are called, directly or by way of
others. -/
theorem reachableHelpers_spec (f : CFile) (order : SetOrder String) :
    ∃ reachable, f.reachableHelpers order = some reachable ∧ ∀ h, h ∈ reachable ↔ f.Called h := by
  have hcalls : ∀ v ∈ f.helperNames.toFinset, ∀ w ∈ order.toList (f.helperCalls v),
      w ∈ f.helperNames.toFinset := by
    intro v _ w hw
    rw [order.mem_toList, helperCalls] at hw
    split at hw
    · exact absurd hw (Finset.notMem_empty w)
    · exact List.mem_toFinset.mpr (mem_helperNames_of_mem hw)
  have hroots : ∀ r ∈ order.toList f.rootCalls, r ∈ f.helperNames.toFinset := by
    intro r hr
    rw [order.mem_toList, rootCalls] at hr
    split at hr
    · exact absurd hr (Finset.notMem_empty r)
    · exact List.mem_toFinset.mpr (mem_helperNames_of_mem hr)
  obtain ⟨s, hs, hvisited⟩ := worklist_spec_pop (fun h => order.toList (f.helperCalls h))
    f.helperNames.toFinset hcalls (order.toList f.rootCalls) hroots
  refine ⟨s.visited, by simp only [reachableHelpers, hs, Option.map_some], fun h => ?_⟩
  rw [hvisited]
  unfold Called Reach
  simp only [order.mem_toList]

/-- The lines that go are those of the ranges of dead helpers. -/
theorem mem_foldl_lines {i : Nat} : ∀ (dead : List FunctionRange) (indexes : Finset Nat),
    i ∈ dead.foldl (fun indexes r => indexes ∪ r.lines) indexes ↔ i ∈ indexes ∨ ∃ r ∈ dead, i ∈ r.lines
  | [], indexes => by simp
  | r :: dead, indexes => by
    rw [List.foldl_cons, mem_foldl_lines dead, Finset.mem_union]
    simp [or_assoc]

variable (f) in
/-- A line of a helper that no chain of calls leads to. -/
def Uncalled (i : Nat) : Prop := ∃ r ∈ f.helperRanges, ¬ f.Called r.name ∧ i ∈ r.lines

/-- **The removed lines are those of the helpers that are not called.** -/
theorem deadLineIndexes_iff (f : CFile) (order : SetOrder String) :
    ∃ indexes, f.deadLineIndexes order = some indexes ∧
      (∃ changed, f.removeDeadHelperDefinitions order =
        some (changed, (f.allLines.zipIdx.filter fun line => line.2 ∉ indexes).map Prod.fst)) ∧
      ∀ i, i ∈ indexes ↔ f.Uncalled i := by
  obtain ⟨reachable, hreachable, hcalled⟩ := reachableHelpers_spec f order
  have hdead : f.deadHelperRanges order = some (f.helperRanges.filter fun r => r.name ∉ reachable) := by
    rw [deadHelperRanges, hreachable, Option.map_some]
  have hlines : f.deadLineIndexes order = some ((f.helperRanges.filter fun r => r.name ∉ reachable).foldl
      (fun indexes r => indexes ∪ r.lines) ∅) := by rw [deadLineIndexes, hdead, Option.map_some]
  refine ⟨_, hlines, ?_, fun i => ?_⟩
  · rw [removeDeadHelperDefinitions, hlines, hdead, Option.bind_some, Option.map_some]
    by_cases hnil : (f.helperRanges.filter fun r => r.name ∉ reachable) = []
    · refine ⟨false, ?_⟩
      rw [if_pos hnil, hnil]
      simp
    · exact ⟨true, by rw [if_neg hnil]⟩
  · rw [mem_foldl_lines]
    simp only [Finset.notMem_empty, false_or, List.mem_filter, decide_eq_true_eq, hcalled, and_assoc]
    rfl

/-! ## What is needed -/

variable (f) in
/-- A line of the root, or of no function. -/
def InRootOrTop (i : Nat) : Prop :=
  (∃ root, f.rootRange = some root ∧ i ∈ root.lines) ∨
    i < f.allLines.length ∧ ∀ r ∈ f.functionRanges, i ∉ r.lines

variable (f) in
/-- **The helpers that are needed**, `refers i name` saying that line `i` calls the helper or uses its value:
those that the root or a line outside the functions refers to, and those that a needed helper refers to. -/
inductive Needed (refers : Nat → String → Prop) : String → Prop
  | root {i : Nat} {name : String} (hi : f.InRootOrTop i) (hname : name ∈ f.helperNames)
    (h : refers i name) : Needed refers name
  | helper {r : FunctionRange} {i : Nat} {name : String} (hr : r ∈ f.helperRanges)
    (hneeded : Needed refers r.name) (hi : i ∈ r.lines) (hname : name ∈ f.helperNames)
    (h : refers i name) : Needed refers name

/-- **The needed helpers are kept and the others removed**, with nothing left that refers to them. -/
structure KeepsNeeded (f : CFile) (order : SetOrder String) (refers : Nat → String → Prop)
    (indexes : Finset Nat) : Prop where
  lines : ∃ changed, f.removeDeadHelperDefinitions order =
    some (changed, (f.allLines.zipIdx.filter fun line => line.2 ∉ indexes).map Prod.fst)
  kept : ∀ r ∈ f.helperRanges, f.Needed refers r.name → ∀ i ∈ r.lines, i ∉ indexes
  removed : ∀ i, i ∈ indexes ↔ ∃ r ∈ f.helperRanges, ¬ f.Needed refers r.name ∧ i ∈ r.lines
  noDangling : ∀ i < f.allLines.length, i ∉ indexes → ∀ r ∈ f.helperRanges, ¬ f.Needed refers r.name →
    ¬ refers i r.name

/-- **Calls tell what is needed**: no line of a needed helper is one of an uncalled helper, every line of a
helper that is not needed is, and no other line refers to such a helper. -/
structure CallsSuffice (f : CFile) (refers : Nat → String → Prop) : Prop where
  needed : ∀ r ∈ f.helperRanges, f.Needed refers r.name → ∀ i ∈ r.lines, ¬ f.Uncalled i
  spare : ∀ r ∈ f.helperRanges, ¬ f.Needed refers r.name → ∀ i ∈ r.lines, f.Uncalled i
  others : ∀ i < f.allLines.length, ¬ f.Uncalled i → ∀ r ∈ f.helperRanges, refers i r.name →
    f.Needed refers r.name

/-- **When the removal is right**, whatever a reference is taken to be: the needed helpers are kept, the others
removed, and nothing left refers to them, exactly if the calls that the function finds suffice to tell what is needed.
-/
theorem removeDeadHelperDefinitions_iff (f : CFile) (order : SetOrder String) (refers : Nat → String → Prop) :
    (∃ indexes, f.deadLineIndexes order = some indexes ∧ f.KeepsNeeded order refers indexes) ↔
      f.CallsSuffice refers := by
  obtain ⟨indexes, hindexes, hlines, hmem⟩ := deadLineIndexes_iff f order
  constructor
  · rintro ⟨indexes', hindexes', h⟩
    obtain rfl := Option.some.inj (hindexes.symm.trans hindexes')
    refine ⟨fun r hr hneeded i hi huncalled => ?_, fun r hr hspare i hi => ?_, fun i hi hkept r hr href => ?_⟩
    · exact h.kept r hr hneeded i hi ((hmem i).mpr huncalled)
    · exact (hmem i).mp ((h.removed i).mpr ⟨r, hr, hspare, hi⟩)
    · by_contra hspare
      exact h.noDangling i hi (fun hin => hkept ((hmem i).mp hin)) r hr hspare href
  · intro h
    refine ⟨indexes, hindexes, hlines, ?_, fun i => ⟨fun hi => ?_, ?_⟩, ?_⟩
    · intro r hr hneeded i hi hin
      exact h.needed r hr hneeded i hi ((hmem i).mp hin)
    · obtain ⟨r, hr, huncalled, hir⟩ := (hmem i).mp hi
      refine ⟨r, hr, fun hneeded => ?_, hir⟩
      exact h.needed r hr hneeded i hir ⟨r, hr, huncalled, hir⟩
    · rintro ⟨r, hr, hspare, hi⟩
      exact (hmem i).mpr (h.spare r hr hspare i hi)
    · intro i hi hkept r hr hspare href
      exact hspare (h.others i hi (fun huncalled => hkept ((hmem i).mpr huncalled)) r hr href)

/-! ## A callback -/

/-- A helper whose address the root passes on. -/
def callbackFile : CFile where
  charClass := .ascii
  allLines := ["int twice(int x) \x7b return x + x; \x7d\n", "int root(int x) \x7b return map(twice, x); \x7d\n"]
  tags := [⟨"twice", 1, some 1⟩, ⟨"root", 2, some 2⟩]
  rootFunction := "root"

/-- A name in a line. -/
def names (f : CFile) (i : Nat) (name : String) : Prop :=
  (wholeWord f.charClass name).found (f.allLines.getD i "") = true

/-- The helper is removed, and the root still refers to it. -/
theorem removeDeadHelperDefinitions_callback :
    callbackFile.removeDeadHelperDefinitions (.ascending String) =
        some (true, ["int root(int x) \x7b return map(twice, x); \x7d\n"]) ∧
      callbackFile.Needed callbackFile.names "twice" ∧
      ¬ ∃ indexes, callbackFile.deadLineIndexes (.ascending String) = some indexes ∧
        callbackFile.KeepsNeeded (.ascending String) callbackFile.names indexes := by
  have hneeded : callbackFile.Needed callbackFile.names "twice" := by
    have hroot : callbackFile.rootRange = some ⟨"root", 1, 1⟩ := by rfl
    refine .root (i := 1) (.inl ⟨_, hroot, by decide⟩) (by decide +kernel) ?_
    unfold names
    decide +kernel
  refine ⟨by decide +kernel, hneeded, ?_⟩
  rintro ⟨indexes, hindexes, h⟩
  have hdead : callbackFile.deadLineIndexes (.ascending String) = some {0} := by decide +kernel
  obtain rfl := Option.some.inj (hdead.symm.trans hindexes)
  have hhelper : (⟨"twice", 0, 0⟩ : FunctionRange) ∈ callbackFile.helperRanges := by
    have hranges : callbackFile.helperRanges = [⟨"twice", 0, 0⟩] := by rfl
    rw [hranges]
    exact List.mem_singleton_self _
  exact h.kept _ hhelper hneeded 0 (by decide) (by decide)

end CFile

end Assure
