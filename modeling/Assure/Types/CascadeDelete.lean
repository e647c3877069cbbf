import Assure.Library.Lines
import Assure.Library.Loop
import Assure.Library.Regex
import Assure.Types.TypeGraph
import Mathlib.Order.Bounds.Basic

/-!
# Deleting what mentions a deleted type

A struct whose translation came out empty is gone, and whatever mentions it has to go or to change: a
variable or an alias is emptied (and its name is deleted in turn), a struct or union loses the lines that
look like a field of that type. The loop runs until nothing more is deleted.

The deletions are by name. They come to the least set of names that the rule asks for
(`cascadeDelete_spec`).

The loop is proved to end for every registry. Where a name stands for several nodes the deletion by
name reaches all of them; nothing is promised there, and neither for fields that share a line with a
header.
-/

namespace Assure

open Assure.Library

/-- **An entry of the type registry**: what the loop reads and writes of it. -/
structure TypeEntry where
  kind : TypeKind
  name : String
  rustCode : String
  deriving DecidableEq

/-- `surgicalKinds` -/
def TypeKind.isComposite : TypeKind → Bool
  | .struct => true
  | .union => true
  | _ => false

/-! ## Texts -/

/-- `re.sub(r"//[^\n]*", "", code)`; in a comment or not. -/
def dropLineComments : Bool → List Char → List Char
  | _, [] => []
  | inside, c :: cs =>
    if c = '\n' then c :: dropLineComments false cs
    else if inside || (c = '/' && cs.head? = some '/') then dropLineComments true cs
    else c :: dropLineComments false cs

/-- What follows the first `*/`. -/
def afterBlockComment : List Char → Option (List Char)
  | [] => none
  | c :: cs => if c = '*' ∧ cs.head? = some '/' then some cs.tail else afterBlockComment cs

/-- `re.sub(r"/\*.*?\*/", "", code, flags=re.DOTALL)`, on a text not longer than the fuel. -/
def dropBlockComments : Nat → List Char → List Char
  | 0, cs => cs
  | _, [] => []
  | fuel + 1, c :: cs =>
    if c = '/' ∧ cs.head? = some '*' then
      match afterBlockComment cs.tail with
      | some rest => dropBlockComments fuel rest
      | none => c :: dropBlockComments fuel cs
    else c :: dropBlockComments fuel cs

/-- `lineCommentRe.sub("", line)` -/
def beforeLineComment : List Char → List Char
  | [] => []
  | c :: cs => if c = '/' ∧ cs.head? = some '/' then [] else c :: beforeLineComment cs

section

variable (chars : CharClass)

/-- `text.rstrip()` -/
def rstrip (text : List Char) : List Char := (text.reverse.dropWhile chars.space).reverse

/-- **`_isEmptyOrCommentOnly`** -/
def isEmptyOrCommentOnly (code : String) : Bool :=
  strip chars code == "" ||
    strip chars (String.ofList (dropBlockComments code.length (dropLineComments false code.toList))) == ""

/-- `re.search(rf'\b{re.escape(name)}\b', code)` -/
def mentions (name code : String) : Bool := (Pattern.wholeWord chars name).found code

/-- What a line holds before its comment. -/
def withoutComment (line : List Char) : List Char := rstrip chars (beforeLineComment line)

/-- **A line that looks like a declaration with one of the names.** -/
def isRemovable (names : Finset String) (line : List Char) : Bool :=
  decide (∃ name ∈ names, mentions chars name (String.ofList (withoutComment chars line)) = true) &&
    ((withoutComment chars line).getLast? == some ';' || (withoutComment chars line).getLast? == some ',')

/-- **`_surgicallyRemoveLines`**: the code without the lines, and the lines. -/
def surgicallyRemoveLines (code : String) (names : Finset String) : String × List (List Char) :=
  if names = ∅ then (code, [])
  else
    let lines := code.toList.splitOn '\n'
    (String.ofList (['\n'].intercalate (lines.filter fun line => !isRemovable chars names line)),
      lines.filter fun line => isRemovable chars names line)

/-! ## The loop -/

/-- **One entry in a pass**: what becomes of it, and whether it was emptied. -/
def cascadeEntry (deletedNames : Finset String) (n : TypeEntry) : TypeEntry × Bool :=
  if n.name = "" ∨ n.name ∈ deletedNames then (n, false)
  else if n.rustCode = "" then (n, false)
  else
    let refs := deletedNames.filter fun d => mentions chars d n.rustCode
    if refs = ∅ then (n, false)
    else if n.kind.isComposite then
      let (newCode, removedLines) := surgicallyRemoveLines chars n.rustCode refs
      if removedLines = [] then (n, false) else ({ n with rustCode := newCode }, false)
    else ({ n with rustCode := "" }, true)

/-- The variables of the loop. -/
structure Cascade where
  nodes : List TypeEntry
  deletedNames : Finset String
  running : Bool

/-- **One pass of `while True`.** -/
def cascadePass (s : Cascade) : Cascade :=
  let results := s.nodes.map (cascadeEntry chars s.deletedNames)
  let newlyDeleted := ((results.filter Prod.snd).map fun result => result.1.name).toFinset
  ⟨results.map Prod.fst, s.deletedNames ∪ newlyDeleted, decide (newlyDeleted ≠ ∅)⟩

/-- The names to start with: structs that are empty. -/
def emptyStructs (nodes : List TypeEntry) : Finset String :=
  ((nodes.filter fun n => n.name ≠ "" ∧ n.kind = .struct ∧
    isEmptyOrCommentOnly chars (strip chars n.rustCode)).map TypeEntry.name).toFinset

/-- **`_cascadeDeleteEmptyTypeReferences`**: the entries that it leaves, and the deleted names. -/
def cascadeDelete (registry : List TypeEntry) : Option (List TypeEntry × Finset String) :=
  if emptyStructs chars registry = ∅ then some (registry, ∅)
  else
    (whileLoop Cascade.running (fun s => some (cascadePass chars s)) (registry.length + 1)
      ⟨registry, emptyStructs chars registry, true⟩).map fun s => (s.nodes, s.deletedNames)

end

/-! ## What a line mentions -/

section

variable {chars : CharClass}

/-- What is cut off a line is nothing or begins with a slash. -/
theorem beforeLineComment_append : ∀ line : List Char, ∃ tail, line = beforeLineComment line ++ tail ∧
    (tail = [] ∨ tail.head? = some '/')
  | [] => ⟨[], rfl, .inl rfl⟩
  | c :: cs => by
    rw [beforeLineComment]
    split
    · rename_i h
      exact ⟨c :: cs, rfl, .inr (congrArg some h.1)⟩
    · obtain ⟨tail, htail, hhead⟩ := beforeLineComment_append cs
      exact ⟨tail, congrArg (c :: ·) htail, hhead⟩

/-- What is stripped off a line are blanks. -/
theorem rstrip_append (text : List Char) : ∃ tail, text = rstrip chars text ++ tail ∧
    ∀ c ∈ tail, chars.space c = true := by
  refine ⟨(text.reverse.takeWhile chars.space).reverse, ?_, ?_⟩
  · rw [rstrip, ← List.reverse_append, List.takeWhile_append_dropWhile, List.reverse_reverse]
  · intro c hc
    exact List.all_eq_true.mp List.all_takeWhile c (List.mem_reverse.mp hc)

/-- A blank belongs to no word. -/
theorem CharClass.word_eq_false_of_space {c : Char} (h : chars.space c = true) : chars.word c = false := by
  cases hword : chars.word c with
  | false => rfl
  | true =>
    rw [chars.disjoint c hword] at h
    cases h

/-- After what a line holds before its comment no word goes on. -/
theorem withoutComment_append (line : List Char) : ∃ tail, line = withoutComment chars line ++ tail ∧
    tail.head?.any chars.word = false := by
  obtain ⟨comment, hcomment, hslash⟩ := beforeLineComment_append line
  obtain ⟨spaces, hspaces, hall⟩ : ∃ spaces, beforeLineComment line =
      rstrip chars (beforeLineComment line) ++ spaces ∧ ∀ c ∈ spaces, chars.space c = true :=
    rstrip_append (beforeLineComment line)
  have hword : chars.word '/' = false := chars.word_ascii '/' (by decide)
  refine ⟨spaces ++ comment, ?_, ?_⟩
  · rw [withoutComment, ← List.append_assoc, ← hspaces, ← hcomment]
  · cases spaces with
    | nil =>
      rcases hslash with rfl | hslash
      · rfl
      · rw [List.nil_append, hslash]
        exact hword
    | cons c spaces => exact CharClass.word_eq_false_of_space (hall c List.mem_cons_self)

/-- **What a line of a code mentions, the code mentions.** -/
theorem mentions_of_line {name code : String} {line : List Char} (hline : line ∈ code.toList.splitOn '\n')
    (h : mentions chars name (String.ofList (withoutComment chars line)) = true) :
    mentions chars name code = true := by
  obtain ⟨front, back, hcode, hfront, hback⟩ := exists_of_mem_splitOn hline
  obtain ⟨tail, htail, hhead⟩ : ∃ tail, line = withoutComment chars line ++ tail ∧
      tail.head?.any chars.word = false := withoutComment_append line
  have hword : chars.word '\n' = false := chars.word_ascii '\n' (by decide)
  have hlast : front.getLast?.any chars.word = false := by
    rcases hfront with rfl | hfront
    · rfl
    · rw [hfront]
      exact hword
  have hrest : (tail ++ back).head?.any chars.word = false := by
    cases tail with
    | nil =>
      rcases hback with rfl | hback
      · rfl
      · rw [List.nil_append, hback]
        exact hword
    | cons c tail => exact hhead
  have hfound := (Pattern.Extends.wholeWord name).found hlast hrest h
  rwa [← List.append_assoc (withoutComment chars line), ← htail, ← hcode, String.ofList_toList] at hfound

/-- A field line that is removed for some names is removed for more. -/
theorem isRemovable_mono {names names' : Finset String} (h : names ⊆ names') {line : List Char}
    (hline : isRemovable chars names line = true) : isRemovable chars names' line = true := by
  rw [isRemovable, Bool.and_eq_true, decide_eq_true_eq] at hline ⊢
  obtain ⟨⟨name, hname, hmentions⟩, hend⟩ := hline
  exact ⟨⟨name, h hname, hmentions⟩, hend⟩

/-- An empty line is never removed. -/
theorem isRemovable_nil (names : Finset String) : isRemovable chars names [] = false := by
  unfold isRemovable
  exact Bool.and_false _

/-- Of the names a code mentions, the others make no line removable. -/
theorem isRemovable_refs {names : Finset String} {code : String} {line : List Char}
    (hline : line ∈ code.toList.splitOn '\n') :
    isRemovable chars (names.filter fun d => mentions chars d code) line = isRemovable chars names line := by
  rw [Bool.eq_iff_iff]
  refine ⟨isRemovable_mono (Finset.filter_subset _ _), fun h => ?_⟩
  rw [isRemovable, Bool.and_eq_true, decide_eq_true_eq] at h ⊢
  obtain ⟨⟨name, hname, hmentions⟩, hend⟩ := h
  exact ⟨⟨name, Finset.mem_filter.mpr ⟨hname, mentions_of_line hline hmentions⟩, hmentions⟩, hend⟩

variable (chars) in
/-- The code without the lines that are removable for some names. -/
def withoutFields (names : Finset String) (code : String) : String :=
  String.ofList (keepLines (isRemovable chars names) code.toList)

/-- Without names nothing is removed. -/
theorem withoutFields_empty (code : String) : withoutFields chars ∅ code = code := by
  have hall : ∀ line, isRemovable chars ∅ line = false := fun line => by simp [isRemovable]
  rw [withoutFields, keepLines]
  simp only [hall, Bool.not_false, List.filter_true]
  rw [List.intercalate_splitOn, String.ofList_toList]

/-- Removing for some names and then for more is removing for the more. -/
theorem withoutFields_withoutFields {names names' : Finset String} (h : names ⊆ names') (code : String) :
    withoutFields chars names' (withoutFields chars names code) = withoutFields chars names' code := by
  have hmono : ∀ line, isRemovable chars names line = true → isRemovable chars names' line = true :=
    fun _ => isRemovable_mono h
  rw [withoutFields, withoutFields, String.toList_ofList, keepLines_keepLines hmono (isRemovable_nil names'),
    withoutFields]

/-- Only the names that the text mentions matter. -/
theorem withoutFields_refs (names : Finset String) (code : String) :
    withoutFields chars (names.filter fun d => mentions chars d code) code = withoutFields chars names code := by
  unfold withoutFields keepLines
  congr 2
  refine List.filter_congr fun line hline => ?_
  rw [isRemovable_refs hline]

/-- The text that is left. -/
theorem surgicallyRemoveLines_fst (code : String) (names : Finset String) :
    (surgicallyRemoveLines chars code names).1 = withoutFields chars names code := by
  unfold surgicallyRemoveLines
  split
  · rename_i hnames
    rw [hnames, withoutFields_empty]
  · rfl

/-- If no line was removed the text is as it was. -/
theorem surgicallyRemoveLines_of_nil {code : String} {names : Finset String}
    (h : (surgicallyRemoveLines chars code names).2 = []) : withoutFields chars names code = code := by
  unfold surgicallyRemoveLines at h
  split at h
  · rename_i hnames
    rw [hnames, withoutFields_empty]
  · have hnone := List.filter_eq_nil_iff.mp h
    rw [withoutFields, keepLines, List.filter_eq_self.mpr, List.intercalate_splitOn, String.ofList_toList]
    intro line hline
    rw [Bool.not_eq_true']
    exact Bool.eq_false_iff.mpr (hnone line hline)

/-! ## One entry -/

variable (chars) in
/-- **What one pass does to an entry**: nothing, if its name is deleted, or nothing it mentions is; else an
alias or a variable is emptied, and a composite type loses lines. -/
inductive EntryStep (deletedNames : Finset String) (n : TypeEntry) : TypeEntry × Bool → Prop
  | skipped (h : n.name = "" ∨ n.name ∈ deletedNames) : EntryStep deletedNames n (n, false)
  | kept (hkind : n.kind.isComposite = false)
    (h : n.rustCode = "" ∨ ∀ d ∈ deletedNames, mentions chars d n.rustCode = false) :
    EntryStep deletedNames n (n, false)
  | emptied {d : String} (hname : n.name ≠ "") (hnew : n.name ∉ deletedNames)
    (hkind : n.kind.isComposite = false) (hcode : n.rustCode ≠ "") (hd : d ∈ deletedNames)
    (hmentions : mentions chars d n.rustCode = true) :
    EntryStep deletedNames n ({ n with rustCode := "" }, true)
  | repaired (hname : n.name ≠ "") (hnew : n.name ∉ deletedNames) (hkind : n.kind.isComposite = true) :
    EntryStep deletedNames n ({ n with rustCode := withoutFields chars deletedNames n.rustCode }, false)

/-- Nothing is removed from an empty text. -/
theorem withoutFields_nil (names : Finset String) : withoutFields chars names "" = "" := by
  have hlines : ("" : String).toList.splitOn '\n' = [[]] := rfl
  rw [withoutFields, keepLines, hlines, List.filter_cons_of_pos (by rw [isRemovable_nil]; rfl)]
  rfl

/-- Everything one entry of the cascade can do, whatever its kind. The invariant is proved from this
alone. -/
theorem cascadeEntry_step (deletedNames : Finset String) (n : TypeEntry) :
    EntryStep chars deletedNames n (cascadeEntry chars deletedNames n) := by
  unfold cascadeEntry
  split
  · exact .skipped ‹_›
  · rename_i hskip
    push Not at hskip
    obtain ⟨hname, hnew⟩ := hskip
    have hsame : n.kind.isComposite = true → withoutFields chars deletedNames n.rustCode = n.rustCode →
        EntryStep chars deletedNames n (n, false) := by
      intro hkind hcode
      have hstep : EntryStep chars deletedNames n
          ({ n with rustCode := withoutFields chars deletedNames n.rustCode }, false) :=
        .repaired hname hnew hkind
      rwa [hcode] at hstep
    split
    · rename_i hcode
      cases hkind : n.kind.isComposite with
      | false => exact .kept hkind (.inl hcode)
      | true => exact hsame hkind (by rw [hcode, withoutFields_nil])
    · rename_i hcode
      dsimp only
      split
      · rename_i hrefs
        cases hkind : n.kind.isComposite with
        | false =>
          refine .kept hkind (.inr fun d hd => ?_)
          exact Bool.eq_false_iff.mpr (Finset.filter_eq_empty_iff.mp hrefs hd)
        | true => exact hsame hkind (by rw [← withoutFields_refs, hrefs, withoutFields_empty])
      · rename_i hrefs
        obtain ⟨d, hd⟩ := Finset.nonempty_iff_ne_empty.mpr hrefs
        obtain ⟨hd, hmentions⟩ := Finset.mem_filter.mp hd
        split
        · rename_i hkind
          split
          · rename_i hremoved
            exact hsame hkind (by rw [← withoutFields_refs, surgicallyRemoveLines_of_nil hremoved])
          · rw [surgicallyRemoveLines_fst, withoutFields_refs]
            exact .repaired hname hnew hkind
        · rename_i hkind
          exact .emptied hname hnew (Bool.eq_false_iff.mpr hkind) hcode hd hmentions

/-- **What has become of an entry.** -/
structure Progress (chars : CharClass) (deletedNames : Finset String) (n n' : TypeEntry) : Prop where
  kind : n'.kind = n.kind
  name : n'.name = n.name
  composite : n.kind.isComposite = true →
    ∃ names ⊆ deletedNames, n'.rustCode = withoutFields chars names n.rustCode
  plain : n.kind.isComposite = false → n'.rustCode = n.rustCode ∨ (n'.rustCode = "" ∧
    n.name ∈ deletedNames ∧ ∃ d ∈ deletedNames, mentions chars d n.rustCode = true)

/-- **An entry that is done with**, if its name was not deleted. -/
structure Settled (chars : CharClass) (deletedNames : Finset String) (n n' : TypeEntry) : Prop where
  composite : n.name ≠ "" → n.name ∉ deletedNames → n.kind.isComposite = true →
    n'.rustCode = withoutFields chars deletedNames n.rustCode
  plain : n.name ≠ "" → n.name ∉ deletedNames → n.kind.isComposite = false →
    n'.rustCode = n.rustCode ∧ (n.rustCode = "" ∨ ∀ d ∈ deletedNames, mentions chars d n.rustCode = false)

/-- At the start every entry has got nowhere yet. -/
theorem Progress.start (n : TypeEntry) (deletedNames : Finset String) : Progress chars deletedNames n n where
  kind := rfl
  name := rfl
  composite _ := ⟨∅, Finset.empty_subset _, (withoutFields_empty n.rustCode).symm⟩
  plain _ := .inl rfl

/-- What an entry has got to, it has for more names too. -/
theorem Progress.mono {deletedNames more : Finset String} (hsub : deletedNames ⊆ more) {n n' : TypeEntry}
    (h : Progress chars deletedNames n n') : Progress chars more n n' where
  kind := h.kind
  name := h.name
  composite hkind := by
    obtain ⟨names, hnames, hcode⟩ := h.composite hkind
    exact ⟨names, hnames.trans hsub, hcode⟩
  plain hkind := by
    rcases h.plain hkind with hcode | ⟨hcode, hname, d, hd, hmentions⟩
    · exact .inl hcode
    · exact .inr ⟨hcode, hsub hname, d, hsub hd, hmentions⟩

/-- **A pass goes on with an entry.** -/
theorem Progress.step {deletedNames more : Finset String} (hsub : deletedNames ⊆ more) {n n' : TypeEntry}
    (h : Progress chars deletedNames n n') {r : TypeEntry × Bool} (hr : EntryStep chars deletedNames n' r)
    (hmore : r.2 = true → r.1.name ∈ more) : Progress chars more n r.1 := by
  cases hr with
  | skipped => exact h.mono hsub
  | kept => exact h.mono hsub
  | @emptied d hname hnew hkind hcode hd hmentions =>
    refine ⟨h.kind, h.name, fun hcomposite => ?_, fun hplain => .inr ⟨rfl, ?_, d, hsub hd, ?_⟩⟩
    · rw [h.kind, hcomposite] at hkind
      cases hkind
    · have hmem : n'.name ∈ more := hmore rfl
      rwa [h.name] at hmem
    · rcases h.plain hplain with hsame | ⟨hempty, -⟩
      · rwa [hsame] at hmentions
      · exact absurd hempty hcode
  | repaired hname hnew hkind =>
    refine ⟨h.kind, h.name, fun hcomposite => ?_, fun hplain => ?_⟩
    · obtain ⟨names, hnames, hcode⟩ := h.composite hcomposite
      refine ⟨deletedNames, hsub, ?_⟩
      rw [hcode, withoutFields_withoutFields hnames]
    · rw [h.kind, hplain] at hkind
      cases hkind

/-- **An entry that a pass leaves as it is is done with.** -/
theorem Progress.settled {deletedNames : Finset String} {n n' : TypeEntry}
    (h : Progress chars deletedNames n n') {r : TypeEntry × Bool} (hr : EntryStep chars deletedNames n' r)
    (hstop : r.2 = false) : Settled chars deletedNames n r.1 := by
  cases hr with
  | skipped hskip =>
    rw [h.name] at hskip
    exact ⟨fun hname hnew _ => absurd hskip (not_or.mpr ⟨hname, hnew⟩),
      fun hname hnew _ => absurd hskip (not_or.mpr ⟨hname, hnew⟩)⟩
  | kept hkind hkept =>
    rw [h.kind] at hkind
    refine ⟨fun _ _ hcomposite => ?_, fun _ hnew _ => ?_⟩
    · rw [hkind] at hcomposite
      cases hcomposite
    · rcases h.plain hkind with hcode | ⟨-, hname, -⟩
      · rw [hcode] at hkept
        exact ⟨hcode, hkept⟩
      · exact absurd hname hnew
  | emptied => cases hstop
  | repaired _ _ hkind =>
    rw [h.kind] at hkind
    refine ⟨fun _ _ _ => ?_, fun _ _ hplain => ?_⟩
    · obtain ⟨names, hnames, hcode⟩ := h.composite hkind
      rw [hcode, withoutFields_withoutFields hnames]
    · rw [hkind] at hplain
      cases hplain

/-! ## The whole loop -/

variable (chars) in
/-- **The rule**: names of empty structs are deleted, and those of variables and aliases that mention a
deleted name. -/
def CascadeClosed (registry : List TypeEntry) (names : Set String) : Prop :=
  (∀ n ∈ registry, n.name ≠ "" → n.kind = .struct → isEmptyOrCommentOnly chars (strip chars n.rustCode) →
    n.name ∈ names) ∧
  ∀ n ∈ registry, n.name ≠ "" → n.kind.isComposite = false → n.rustCode ≠ "" → ∀ d ∈ names,
    mentions chars d n.rustCode → n.name ∈ names

/-- **An entry of that name was emptied**: an alias or a variable that had a code. -/
def IsEmptied (registry nodes : List TypeEntry) (name : String) : Prop :=
  ∃ (i : Nat) (n n' : TypeEntry), registry[i]? = some n ∧ nodes[i]? = some n' ∧ n.name = name ∧
    n.kind.isComposite = false ∧ n.rustCode ≠ "" ∧ n'.rustCode = ""

/-- **The invariant of the loop.** -/
structure Cascade.Inv (chars : CharClass) (registry : List TypeEntry) (s : Cascade) : Prop where
  length : s.nodes.length = registry.length
  progress : ∀ (i : Nat) n, registry[i]? = some n →
    ∃ n', s.nodes[i]? = some n' ∧ Progress chars s.deletedNames n n'
  seeds : emptyStructs chars registry ⊆ s.deletedNames
  emptied : ∀ name ∈ s.deletedNames, name ∈ emptyStructs chars registry ∨ IsEmptied registry s.nodes name
  least : ∀ names, CascadeClosed chars registry names → ↑s.deletedNames ⊆ names
  settled : s.running = false → ∀ (i : Nat) n, registry[i]? = some n →
    ∃ n', s.nodes[i]? = some n' ∧ Settled chars s.deletedNames n n'

/-- The names the cascade starts from are those of structs without code. -/
theorem mem_emptyStructs {registry : List TypeEntry} {name : String} :
    name ∈ emptyStructs chars registry ↔ ∃ n ∈ registry, n.name ≠ "" ∧ n.kind = .struct ∧
      isEmptyOrCommentOnly chars (strip chars n.rustCode) ∧ n.name = name := by
  simp [emptyStructs, and_assoc]

/-- The loop starts in its invariant. -/
theorem Cascade.Inv.start {registry : List TypeEntry} {running : Bool}
    (hrunning : running = false → emptyStructs chars registry = ∅) :
    Cascade.Inv chars registry ⟨registry, emptyStructs chars registry, running⟩ where
  length := rfl
  progress _ n hn := ⟨n, hn, .start n _⟩
  seeds := Finset.Subset.refl _
  emptied _ hname := .inl hname
  least names hnames name hname := by
    obtain ⟨n, hn, hne, hkind, hempty, rfl⟩ := mem_emptyStructs.mp hname
    exact hnames.1 n hn hne hkind hempty
  settled hstop _ n hn := by
    refine ⟨n, hn, fun _ _ _ => ?_, fun _ _ _ => ⟨rfl, .inr fun d hd => ?_⟩⟩
    · show n.rustCode = withoutFields chars (emptyStructs chars registry) n.rustCode
      rw [hrunning hstop, withoutFields_empty]
    · have hd : d ∈ emptyStructs chars registry := hd
      rw [hrunning hstop] at hd
      exact absurd hd (Finset.notMem_empty d)

/-- The names that a pass adds. -/
theorem mem_newlyDeleted {s : Cascade} {name : String} :
    name ∈ (((s.nodes.map (cascadeEntry chars s.deletedNames)).filter Prod.snd).map
      fun result => result.1.name).toFinset ↔
      ∃ n ∈ s.nodes, (cascadeEntry chars s.deletedNames n).2 = true ∧
        (cascadeEntry chars s.deletedNames n).1.name = name := by
  simp [and_assoc]

/-- What is empty stays so. -/
theorem cascadeEntry_of_empty {deletedNames : Finset String} {n : TypeEntry} (h : n.rustCode = "") :
    (cascadeEntry chars deletedNames n).1.rustCode = "" := by
  rw [cascadeEntry, if_pos h]
  split <;> exact h

/-- **An entry that a pass empties** was as in the registry before. -/
theorem Cascade.Inv.emptied_entry {registry : List TypeEntry} {s : Cascade} (h : s.Inv chars registry)
    {n' : TypeEntry} (hn' : n' ∈ s.nodes) (hemptied : (cascadeEntry chars s.deletedNames n').2 = true) :
    ∃ (i : Nat) (n : TypeEntry) (d : String), registry[i]? = some n ∧ s.nodes[i]? = some n' ∧
      (cascadeEntry chars s.deletedNames n').1 = { n' with rustCode := "" } ∧ n'.name = n.name ∧ n.name ≠ "" ∧
      n.kind.isComposite = false ∧ n.rustCode ≠ "" ∧ d ∈ s.deletedNames ∧ mentions chars d n.rustCode = true := by
  obtain ⟨i, hi⟩ := List.mem_iff_getElem?.mp hn'
  obtain ⟨n, hn⟩ : ∃ n, registry[i]? = some n := by
    have hlt := (List.getElem?_eq_some_iff.mp hi).1
    rw [h.length] at hlt
    exact ⟨registry[i], List.getElem?_eq_getElem hlt⟩
  obtain ⟨n'', hn'', hprogress⟩ := h.progress i n hn
  obtain rfl := Option.some.inj (hi.symm.trans hn'')
  have hstep : EntryStep chars s.deletedNames n' (cascadeEntry chars s.deletedNames n') :=
    cascadeEntry_step s.deletedNames n'
  generalize cascadeEntry chars s.deletedNames n' = r at hstep hemptied ⊢
  cases hstep with
  | skipped => cases hemptied
  | kept => cases hemptied
  | repaired => cases hemptied
  | @emptied d hname hunseen hkind hcode hd hmentions =>
    rw [hprogress.kind] at hkind
    rw [hprogress.name] at hname
    have hsame : n'.rustCode = n.rustCode := by
      rcases hprogress.plain hkind with hsame | ⟨hempty, -⟩
      · exact hsame
      · exact absurd hempty hcode
    rw [hsame] at hcode hmentions
    exact ⟨i, n, d, hn, hi, rfl, hprogress.name, hname, hkind, hcode, hd, hmentions⟩

/-- **A pass keeps the invariant.** -/
theorem Cascade.Inv.pass {registry : List TypeEntry} {s : Cascade} (h : s.Inv chars registry) :
    (cascadePass chars s).Inv chars registry where
  length := by
    show ((s.nodes.map (cascadeEntry chars s.deletedNames)).map Prod.fst).length = registry.length
    rw [List.length_map, List.length_map, h.length]
  progress i n hn := by
    obtain ⟨n', hn', hprogress⟩ := h.progress i n hn
    refine ⟨(cascadeEntry chars s.deletedNames n').1, by simp [cascadePass, hn'], ?_⟩
    refine hprogress.step Finset.subset_union_left (cascadeEntry_step s.deletedNames n') fun hemptied => ?_
    exact Finset.mem_union_right _ (mem_newlyDeleted.mpr ⟨n', List.mem_of_getElem? hn', hemptied, rfl⟩)
  seeds := h.seeds.trans Finset.subset_union_left
  emptied name hname := by
    have hnodes : ∀ {i : Nat} {n' : TypeEntry}, s.nodes[i]? = some n' →
        (cascadePass chars s).nodes[i]? = some (cascadeEntry chars s.deletedNames n').1 := fun hn' => by
      simp [cascadePass, hn']
    rcases Finset.mem_union.mp hname with hold | hnew
    · rcases h.emptied name hold with hseed | ⟨i, n, n', hn, hn', hsame, hkind, hcode, hempty⟩
      · exact .inl hseed
      · exact .inr ⟨i, n, _, hn, hnodes hn', hsame, hkind, hcode, cascadeEntry_of_empty hempty⟩
    · obtain ⟨n', hn', hemptied, rfl⟩ := mem_newlyDeleted.mp hnew
      obtain ⟨i, n, d, hn, hi, hr, hsame, -, hkind, hcode, -⟩ := h.emptied_entry hn' hemptied
      refine .inr ⟨i, n, _, hn, hnodes hi, ?_, hkind, hcode, ?_⟩
      · rw [hr]
        exact hsame.symm
      · rw [hr]
  least names hnames name hname := by
    rcases Finset.mem_union.mp hname with hold | hnew
    · exact h.least names hnames hold
    · obtain ⟨n', hn', hemptied, rfl⟩ := mem_newlyDeleted.mp hnew
      obtain ⟨i, n, d, hn, -, hr, hsame, hname, hkind, hcode, hd, hmentions⟩ := h.emptied_entry hn' hemptied
      rw [hr]
      show n'.name ∈ names
      rw [hsame]
      exact hnames.2 n (List.mem_of_getElem? hn) hname hkind hcode d (h.least names hnames hd) hmentions
  settled hstop i n hn := by
    have hnone := of_decide_eq_false hstop
    rw [not_not] at hnone
    obtain ⟨n', hn', hprogress⟩ := h.progress i n hn
    have hdeleted : (cascadePass chars s).deletedNames = s.deletedNames := by
      show s.deletedNames ∪ _ = s.deletedNames
      rw [hnone, Finset.union_empty]
    refine ⟨(cascadeEntry chars s.deletedNames n').1, by simp [cascadePass, hn'], ?_⟩
    rw [hdeleted]
    refine hprogress.settled (cascadeEntry_step s.deletedNames n') (Bool.eq_false_iff.mpr fun hemptied => ?_)
    have hmem : (cascadeEntry chars s.deletedNames n').1.name ∈ (∅ : Finset String) := by
      rw [← hnone]
      exact mem_newlyDeleted.mpr ⟨n', List.mem_of_getElem? hn', hemptied, rfl⟩
    exact Finset.notMem_empty _ hmem

/-- The names that can still be deleted, and one for the pass that deletes none. -/
def Cascade.pending (registry : List TypeEntry) (s : Cascade) : Nat :=
  ((registry.map TypeEntry.name).toFinset \ s.deletedNames).card + if s.running then 1 else 0

/-- **A pass deletes a name or is the last one.** -/
theorem Cascade.Inv.pending_lt {registry : List TypeEntry} {s : Cascade} (h : s.Inv chars registry)
    (hrunning : s.running = true) : (cascadePass chars s).pending registry < s.pending registry := by
  unfold Cascade.pending
  rw [if_pos hrunning]
  by_cases hnone : (cascadePass chars s).running = true
  · rw [if_pos hnone]
    obtain ⟨name, hname⟩ := Finset.nonempty_iff_ne_empty.mpr (of_decide_eq_true hnone)
    obtain ⟨n', hn', hemptied, rfl⟩ := mem_newlyDeleted.mp hname
    have hstep : EntryStep chars s.deletedNames n' (cascadeEntry chars s.deletedNames n') :=
      cascadeEntry_step s.deletedNames n'
    have hnew : n'.name ∉ s.deletedNames ∧ (cascadeEntry chars s.deletedNames n').1.name = n'.name := by
      generalize cascadeEntry chars s.deletedNames n' = r at hstep hemptied
      cases hstep with
      | skipped => cases hemptied
      | kept => cases hemptied
      | repaired => cases hemptied
      | emptied _ hnew => exact ⟨hnew, rfl⟩
    have hregistry : n'.name ∈ (registry.map TypeEntry.name).toFinset := by
      obtain ⟨i, hi⟩ := List.mem_iff_getElem?.mp hn'
      have hlt := (List.getElem?_eq_some_iff.mp hi).1
      rw [h.length] at hlt
      obtain ⟨n'', hn'', hprogress⟩ := h.progress i registry[i] (List.getElem?_eq_getElem hlt)
      obtain rfl := Option.some.inj (hi.symm.trans hn'')
      rw [hprogress.name]
      exact List.mem_toFinset.mpr (List.mem_map_of_mem (List.getElem_mem hlt))
    refine Nat.add_lt_add_right (Finset.card_lt_card (Finset.ssubset_iff_of_subset ?_ |>.mpr ?_)) 1
    · exact Finset.sdiff_subset_sdiff (Finset.Subset.refl _) Finset.subset_union_left
    · refine ⟨n'.name, Finset.mem_sdiff.mpr ⟨hregistry, hnew.1⟩, fun hmem => ?_⟩
      have hdeleted : n'.name ∈ (cascadePass chars s).deletedNames := by
        rw [← hnew.2]
        exact Finset.mem_union_right _ hname
      exact (Finset.mem_sdiff.mp hmem).2 hdeleted
  · rw [if_neg hnone]
    refine Nat.lt_succ_of_le (Finset.card_le_card ?_)
    exact Finset.sdiff_subset_sdiff (Finset.Subset.refl _) Finset.subset_union_left

/-- Where entries are settled, what is mentioned is deleted: the deleted names follow the rule. -/
theorem Cascade.Inv.closed {registry : List TypeEntry} {s : Cascade} (h : s.Inv chars registry)
    (hstop : s.running = false) : CascadeClosed chars registry ↑s.deletedNames := by
  refine ⟨fun n hn hname hkind hempty => h.seeds (mem_emptyStructs.mpr ⟨n, hn, hname, hkind, hempty, rfl⟩), ?_⟩
  intro n hn hname hkind hcode d hd hmentions
  by_contra hnew
  obtain ⟨i, hi⟩ := List.mem_iff_getElem?.mp hn
  obtain ⟨n', -, hsettled⟩ := h.settled hstop i n hi
  rcases (hsettled.plain hname hnew hkind).2 with hempty | hnone
  · exact hcode hempty
  · rw [hnone d hd] at hmentions
    cases hmentions

/-- Where lines were removed, none is left to remove. -/
theorem isRemovable_of_mem_withoutFields {names : Finset String} {code : String} {line : List Char}
    (h : line ∈ (withoutFields chars names code).toList.splitOn '\n') :
    isRemovable chars names line = false := by
  rw [withoutFields, String.toList_ofList] at h
  by_cases hne : (code.toList.splitOn '\n').filter (fun line => !isRemovable chars names line) = []
  · rw [keepLines, hne] at h
    obtain rfl := List.mem_singleton.mp h
    exact isRemovable_nil names
  · rw [splitOn_keepLines hne] at h
    exact (Bool.not_eq_true' _).mp (List.mem_filter.mp h).2

/-- Where each name is one entry's, the names that the loop adds are those of the entries it has emptied. -/
theorem IsEmptied.of_unique {registry nodes : List TypeEntry} {i : Nat} {n n' : TypeEntry}
    (h : IsEmptied registry nodes n.name) (hn' : nodes[i]? = some n')
    (hunique : ∀ (j : Nat) m, registry[j]? = some m → m.name = n.name → j = i) : n'.rustCode = "" := by
  obtain ⟨j, m, m', hm, hm', hsame, -, -, hempty⟩ := h
  obtain rfl := hunique j m hm hsame
  obtain rfl := Option.some.inj (hm'.symm.trans hn')
  exact hempty

variable (chars) in
/-- **What the loop leaves of a registry.** Each deleted name is that of an empty struct or of an entry that was
emptied; so an alias or a variable whose name is deleted is emptied, if no other entry has its name. An entry whose name
is not deleted loses exactly the lines that are removable, or stays as it is and mentions nothing deleted; an entry is
emptied only for a deleted name that it mentions. -/
structure Cascaded (registry nodes : List TypeEntry) (deletedNames : Finset String) : Prop where
  least : IsLeast {names : Set String | CascadeClosed chars registry names} ↑deletedNames
  emptied : ∀ name ∈ deletedNames, name ∈ emptyStructs chars registry ∨ IsEmptied registry nodes name
  length : nodes.length = registry.length
  entries : ∀ (i : Nat) n, registry[i]? = some n → ∃ n', nodes[i]? = some n' ∧
    Progress chars deletedNames n n' ∧ Settled chars deletedNames n n' ∧
    (n.name ∈ deletedNames → n.kind.isComposite = false →
      (∀ (j : Nat) m, registry[j]? = some m → m.name = n.name → j = i) → n'.rustCode = "") ∧
    (n.name ≠ "" → n.name ∉ deletedNames → n.kind.isComposite = true →
      ∀ line ∈ n'.rustCode.toList.splitOn '\n', isRemovable chars deletedNames line = false)

/-- Where the loop has stopped the registry is done with. -/
theorem Cascade.Inv.cascaded {registry : List TypeEntry} {s : Cascade} (h : s.Inv chars registry)
    (hstop : s.running = false) : Cascaded chars registry s.nodes s.deletedNames := by
  refine ⟨⟨h.closed hstop, fun names hnames => h.least names hnames⟩, h.emptied, h.length, fun i n hn => ?_⟩
  obtain ⟨n', hn', hprogress⟩ := h.progress i n hn
  obtain ⟨n'', hn'', hsettled⟩ := h.settled hstop i n hn
  obtain rfl := Option.some.inj (hn'.symm.trans hn'')
  refine ⟨n', hn', hprogress, hsettled, fun hdeleted hkind hunique => ?_, fun hname hnew hkind line hline => ?_⟩
  · rcases h.emptied n.name hdeleted with hseed | hemptied
    · -- the empty struct of that name would be this entry, which is none
      obtain ⟨m, hm, -, hstruct, -, hsame⟩ := mem_emptyStructs.mp hseed
      obtain ⟨j, hj⟩ := List.mem_iff_getElem?.mp hm
      obtain rfl := hunique j m hj hsame
      obtain rfl := Option.some.inj (hj.symm.trans hn)
      rw [hstruct] at hkind
      cases hkind
    · exact hemptied.of_unique hn' hunique
  · rw [hsettled.composite hname hnew hkind] at hline
    exact isRemovable_of_mem_withoutFields hline

/-- **The deletions end, in the least set of names that the rule asks for**, for every registry. A name is added
for an entry that has been emptied, a composite type loses exactly the lines that are removable, and nothing else is touched. The
loop ends since a pass that goes on has a name fewer to add. -/
theorem cascadeDelete_spec (chars : CharClass) (registry : List TypeEntry) :
    ∃ nodes deletedNames, cascadeDelete chars registry = some (nodes, deletedNames) ∧
      Cascaded chars registry nodes deletedNames := by
  by_cases hseeds : emptyStructs chars registry = ∅
  · have hstart : Cascade.Inv chars registry ⟨registry, emptyStructs chars registry, false⟩ :=
      .start fun _ => hseeds
    refine ⟨registry, ∅, if_pos hseeds, ?_⟩
    have hresult := hstart.cascaded rfl
    rwa [hseeds] at hresult
  · have hstart : Cascade.Inv chars registry ⟨registry, emptyStructs chars registry, true⟩ := .start nofun
    have hfuel : Cascade.pending registry ⟨registry, emptyStructs chars registry, true⟩ ≤
        registry.length + 1 := by
      refine Nat.add_le_add_right ((Finset.card_le_card Finset.sdiff_subset).trans ?_) 1
      have hcard := List.toFinset_card_le (registry.map TypeEntry.name)
      rwa [List.length_map] at hcard
    obtain ⟨s, hs, hInv, hstop⟩ := whileLoop_spec Cascade.running (fun s => some (cascadePass chars s))
      (Cascade.Inv chars registry) (Cascade.pending registry)
      (fun s h hrunning => ⟨_, rfl, h.pass, h.pending_lt hrunning⟩) _ _ hstart hfuel
    refine ⟨s.nodes, s.deletedNames, ?_, hInv.cascaded hstop⟩
    rw [cascadeDelete, if_neg hseeds, hs]
    rfl

end

/-- A struct that is gone, one with a field of it on the line of its header, and a variable of it. -/
def fieldOnHeader : List TypeEntry :=
  [⟨.struct, "hooks", ""⟩, ⟨.struct, "C", "pub struct C \x7b h: hooks \x7d"⟩,
    ⟨.staticVar, "g", "pub static mut g: hooks;"⟩]

/-- A struct whose field stands on its header line keeps it, although the type of the field is
deleted: the claim as it was fails there. -/
theorem cascadeDelete_fieldOnHeader : cascadeDelete .ascii fieldOnHeader =
    some ([⟨.struct, "hooks", ""⟩, ⟨.struct, "C", "pub struct C \x7b h: hooks \x7d"⟩,
      ⟨.staticVar, "g", ""⟩], {"hooks", "g"}) ∧
    mentions .ascii "hooks" "pub struct C \x7b h: hooks \x7d" = true := by
  decide +kernel

end Assure
