import Assure.Performance.Sanitize

/-!
# What the fixes keep

A fix cuts out marks and includes, replaces a definition and puts includes in front. So `libc::stderr` does not come back
once it is gone, and of the characters that marks, includes and definitions are made of there are never more than before.

These are lemmas on the way to the bound on the length of a check: each fix either changes nothing
that counts or leaves less of something.
-/

namespace Assure

open Assure.Library
open Assure.Library.Pattern (Uses Advances)

variable {chars : CharClass} {caseClass : CaseClass}

/-! ## Cuts -/

/-- A fixed text in any case goes on by its length. -/
theorem advances_litAnyCase (caseClass : CaseClass) (text : String) : Advances (litAnyCase caseClass text) := by
  unfold litAnyCase
  induction text.toList with
  | nil => exact .pure ()
  | cons c text ih => exact .bind (.one _) fun _ => ih

/-- A marker has a colon in it. -/
theorem uses_markerPattern : Uses (markerPattern chars caseClass) ':' :=
  .bind_right .lineStart fun _ => .bind_right (.many _) fun _ =>
    .bind_right (.optional (.bind (advances_litAnyCase _ _) fun _ => .bind (.many1 _) fun _ => .pure _)) fun _ =>
    .bind_right (advances_litAnyCase _ _) fun _ => .bind_right (.many1 _) fun _ =>
    .bind_right (.optional (.bind (advances_litAnyCase _ _) fun _ => .bind (.many1 _) fun _ => .pure _)) fun _ =>
    .bind_right (advances_litAnyCase _ _) fun _ => .bind_right (.many _) fun _ =>
    .bind_right (.optional (.bind (advances_litAnyCase _ _) fun _ => .bind (.many _) fun _ => .pure _)) fun _ =>
    .bind_left (.lit (by decide)) fun _ => .bind (.many _) fun _ => .lineEnd

/-- A fence has a backquote in it. -/
theorem uses_fencePattern : Uses (fencePattern chars) '\x60' :=
  .bind_right .lineStart fun _ => .bind_right (.many _) fun _ =>
    .bind_left (.lit (by decide)) fun _ => .bind (.many _) fun _ => .bind (.many _) fun _ => .lineEnd

/-- Cutting matches out leaves a part of the text. -/
theorem cut_sublist {γ : Type} (p : Pattern γ) (text : List Char) : (p.cut text).Sublist text :=
  cutMatches_sublist 0 none text

/-- Cutting a pattern that uses some character out changes nothing or leaves fewer of it, and this
bounds how often it can be done. -/
theorem cut_eq_or_lt {γ : Type} {p : Pattern γ} {x : Char} (h : Uses p x) (text : List Char) :
    p.cut text = text ∨ (p.cut text).count x < text.count x :=
  cutMatches_eq_or_lt h.inMatches 0 none text

/-- **Where marks are cut out** there are fewer colons or backticks. -/
theorem strip_eq_or_lt (sourceCode : List Char) :
    stripModelCodeMarkers chars caseClass sourceCode = sourceCode ∨
      (stripModelCodeMarkers chars caseClass sourceCode).count ':' +
        (stripModelCodeMarkers chars caseClass sourceCode).count '\x60' <
        sourceCode.count ':' + sourceCode.count '\x60' := by
  have hmarker := cut_sublist (markerPattern chars caseClass) sourceCode
  have hcolon := hmarker.count_le ':'
  have htick := hmarker.count_le '\x60'
  have hfence := cut_sublist (fencePattern chars) ((markerPattern chars caseClass).cut sourceCode)
  have hcolon' := hfence.count_le ':'
  have htick' := hfence.count_le '\x60'
  rw [stripModelCodeMarkers]
  rcases cut_eq_or_lt uses_fencePattern ((markerPattern chars caseClass).cut sourceCode) with hsame | hlt
  · rw [hsame]
    rcases cut_eq_or_lt uses_markerPattern sourceCode with hsame | hlt
    · exact .inl hsame
    · exact .inr (by omega)
  · exact .inr (by omega)

/-! ## stderr -/

/-- The name of the stream goes over no line break. -/
theorem newline_notMem_libcStderr : '\n' ∉ libcStderr := by decide

/-- Cutting from starts of lines brings no name together that was not there. -/
theorem not_infix_cut {γ : Type} (f : Unit → Pattern γ) {text : List Char} (h : ¬ libcStderr <:+: text) :
    ¬ libcStderr <:+: (Pattern.lineStart >>= f).cut text :=
  mt (infix_of_infix_cutMatches (Pattern.atLineStarts f) newline_notMem_libcStderr 0 none text) h

/-- Stripping markers does not bring the stream of libc in. -/
theorem not_infix_strip {sourceCode : List Char} (h : ¬ libcStderr <:+: sourceCode) :
    ¬ libcStderr <:+: stripModelCodeMarkers chars caseClass sourceCode :=
  not_infix_cut _ (not_infix_cut _ h)

/-- A text that does not name the stream is left as it is. -/
theorem sanitizeRustLibcStderr_without {sourceCode : List Char} (h : ¬ libcStderr <:+: sourceCode) :
    sanitizeRustLibcStderr chars sourceCode = sourceCode := if_pos h

set_option maxRecDepth 4000 in
/-- The block that declares the stream does not name it in the way that is replaced. -/
theorem not_infix_stderrExternBlock : ¬ libcStderr <:+: stderrExternBlock := by decide

/-- A line that is dropped is not empty. -/
theorem shortens_useLine (chars : CharClass) : Shortens (useLine chars).matchAt := by
  intro before text found rest hmatch
  have huses : Uses (useLine chars) 'u' :=
    .bind_right .lineStart fun _ => .bind_right (.many _) fun _ => .bind_left (.lit (by decide)) fun _ =>
      .bind (.many _) fun _ => .lit _
  obtain ⟨taken, rfl, hmem⟩ := huses.inMatches _ _ _ _ hmatch
  have := List.length_pos_of_mem hmem
  rw [List.length_append]
  omega

/-- The name that is written instead shares no character with the old one, so writing it makes no
new mention. -/
theorem performanceStderr_apart : ∀ c ∈ "PERFORMANCE_STDERR".toList, c ∉ libcStderr := by
  have hall : ("PERFORMANCE_STDERR".toList.all fun c => !libcStderr.contains c) = true := by decide
  intro c hc hmem
  have hnot := List.all_eq_true.mp hall c hc
  rw [List.contains_iff_mem.mpr hmem] at hnot
  exact Bool.false_ne_true hnot

/-- **A word comes from the replacement** if it is not in the extern block: what stands before the block and behind it
ends in a line break. -/
theorem infix_of_infix_sanitizeRustLibcStderr {word : List Char} (hline : '\n' ∉ word)
    (hblock : ¬ word <:+: stderrExternBlock) {sourceCode : List Char} (hin : libcStderr <:+: sourceCode)
    (h : word <:+: sanitizeRustLibcStderr chars sourceCode) :
    word <:+: replaceText libcStderr "PERFORMANCE_STDERR".toList 0 sourceCode := by
  rw [sanitizeRustLibcStderr, if_neg (not_not.mpr hin)] at h
  dsimp only at h
  generalize replaceText libcStderr "PERFORMANCE_STDERR".toList 0 sourceCode = updatedCode at h ⊢
  split at h
  · exact h
  · split at h
    · rcases (infix_append_cons_iff hline).mp h with h | h
      · exact absurd h hblock
      · exact h
    · have hsplit := flatMap_splitMatches (shortens_useLine chars) 0 none updatedCode
      rw [List.drop_zero, ← List.rdropWhile_append_rtakeWhile (p := Sum.isLeft)
        (l := splitMatches _ 0 none updatedCode),
        List.flatMap_append] at hsplit
      generalize ((splitMatches (useLine chars).matchAt 0 none updatedCode).rdropWhile Sum.isLeft).flatMap
        pieceSource = front at hsplit h
      generalize ((splitMatches (useLine chars).matchAt 0 none updatedCode).rtakeWhile Sum.isLeft).flatMap
        pieceSource = back at hsplit h
      subst hsplit
      have hends : stderrExternBlock ++ back = stderrExternBlock.dropLast ++ '\n' :: back := rfl
      rw [infix_append_cons_iff hline, hends, infix_append_cons_iff hline] at h
      rcases h with h | h | h
      · exact h.trans (List.prefix_append front back).isInfix
      · exact absurd (h.trans (List.dropLast_prefix _).isInfix) hblock
      · exact h.trans (List.suffix_append front back).isInfix

/-- **After the replacement there is no `libc::stderr`.** -/
theorem not_infix_sanitizeRustLibcStderr (sourceCode : List Char) :
    ¬ libcStderr <:+: sanitizeRustLibcStderr chars sourceCode := by
  by_cases hin : libcStderr <:+: sourceCode
  · exact fun h => not_infix_replaceText (by decide) performanceStderr_apart (by decide) 0 sourceCode
      (infix_of_infix_sanitizeRustLibcStderr newline_notMem_libcStderr not_infix_stderrExternBlock hin h)
  · rwa [sanitizeRustLibcStderr_without hin]

/-! ## Includes -/

/-- **The includes that fixes put in front.** -/
def fixIncludes : List String :=
  ["#include <string.h>", "#include <time.h>", "#include <cstdint>", "#include <cstddef>", "#include <cstdio>",
    "#include <cstdlib>", "#include <cstring>", "#include <cassert>", "#include <cmath>"]

/-- Lines of includes. -/
def topOf (lines : List String) : List Char := lines.flatMap fun line => line.toList ++ ['\n']

/-- The first include stands on the first line. -/
@[simp] theorem topOf_cons (line : String) (lines : List String) :
    topOf (line :: lines) = line.toList ++ '\n' :: topOf lines := by
  rw [topOf, List.flatMap_cons, List.append_assoc]
  rfl

/-- An include is `#include` and no line break. -/
theorem fixIncludes_line : ∀ line ∈ fixIncludes, ∃ rest, line.toList = "#include".toList ++ rest ∧ '\n' ∉ rest := by
  intro line hline
  refine ⟨line.toList.drop 8, ?_⟩
  revert line
  decide

/-- At the start of a line with an include the pattern takes that line. -/
theorem includeLine_matchAt {before : Option Char} (hbefore : before.all (· = '\n') = true) {rest : List Char}
    (hrest : '\n' ∉ rest) (sourceCode : List Char) :
    (includeLine chars).matchAt before ("#include".toList ++ rest ++ '\n' :: sourceCode) =
      some ("#include".toList ++ rest, '\n' :: sourceCode) := by
  have hhash : chars.space '#' = false := by rw [chars.space_ascii _ (by decide)]; rfl
  have hi : chars.space 'i' = false := by rw [chars.space_ascii _ (by decide)]; rfl
  have hline : ∀ d ∈ rest, decide (d ≠ '\n') = true := fun d hd => decide_eq_true (ne_of_mem_of_not_mem hd hrest)
  have hstart : (Pattern.lineStart ⟨before, "#include".toList ++ rest ++ '\n' :: sourceCode⟩).head? =
      some ((), ⟨before, "#include".toList ++ rest ++ '\n' :: sourceCode⟩) := by
    rw [Pattern.lineStart, if_pos hbefore]
    rfl
  have hindent := congrArg List.head? (Pattern.many_of_not hhash before
      ("include".toList ++ rest ++ '\n' :: sourceCode))
  have hmark := congrArg List.head? (Pattern.chars_append ['#'] ("include".toList ++ rest ++ '\n' :: sourceCode) before)
  have hblanks := congrArg List.head?
    (Pattern.many_of_not hi (some '#') ("nclude".toList ++ rest ++ '\n' :: sourceCode))
  have hword := congrArg List.head? (Pattern.chars_append "include".toList (rest ++ '\n' :: sourceCode) (some '#'))
  have hrest : (Pattern.many _ ⟨some 'e', rest ++ '\n' :: sourceCode⟩).head? = _ :=
    Pattern.head?_many hline (show decide ('\n' ≠ '\n') = false by decide) (some 'e')
  have hend : (Pattern.lineEnd ⟨Pattern.lastOr (some 'e') rest, '\n' :: sourceCode⟩).head? =
      some ((), ⟨Pattern.lastOr (some 'e') rest, '\n' :: sourceCode⟩) := rfl
  have hways : (includeLine chars ⟨before, "#include".toList ++ rest ++ '\n' :: sourceCode⟩).head? =
      some ("#include".toList ++ rest, ⟨Pattern.lastOr (some 'e') rest, '\n' :: sourceCode⟩) :=
    Pattern.head?_bind hstart (Pattern.head?_bind hindent (Pattern.head?_bind hmark (Pattern.head?_bind hblanks
      (Pattern.head?_bind hword (Pattern.head?_bind hrest (Pattern.head?_bind hend rfl))))))
  rw [Pattern.matchAt, hways]
  rfl

/-- Whether a line before it ends there or the text begins, the pattern sees the same. -/
theorem blind_includeLine (sourceCode : List Char) :
    (includeLine chars).matchAt (some '\n') sourceCode = (includeLine chars).matchAt none sourceCode :=
  Pattern.matchAt_lineStart (.bind (.many _) fun _ => .bind (.lit _) fun _ => .bind (.many _) fun _ =>
    .bind (.lit _) fun _ => .bind (.many _) fun _ => .bind .lineEnd fun _ => .pure _) rfl rfl sourceCode

/-- **A line in front is found included**, and what was found before is. -/
theorem existingIncludes_cons {line : String} (hline : line ∈ fixIncludes) (sourceCode : List Char) :
    existingIncludes chars (line.toList ++ '\n' :: sourceCode) = line.toList :: existingIncludes chars sourceCode := by
  obtain ⟨rest, htext, hrest⟩ := fixIncludes_line line hline
  have hmatch : (includeLine chars).matchAt none ("#include".toList ++ rest ++ '\n' :: sourceCode) = _ :=
    includeLine_matchAt rfl hrest sourceCode
  rw [htext]
  have hpieces : splitMatches (includeLine chars).matchAt 0 none ("#include".toList ++ rest ++ '\n' :: sourceCode) =
      .inr ("#include".toList ++ rest, "#include".toList ++ rest) :: .inl '\n' ::
        splitMatches (includeLine chars).matchAt 0 none sourceCode := by
    have hbefore : ∃ c, ("include".toList ++ rest).getLast?.or (some '#') = some c ∧ c ≠ '\n' := by
      obtain ⟨c, hc⟩ : ∃ c, ("include".toList ++ rest).getLast? = some c :=
        ⟨_, List.getLast?_eq_some_getLast (List.append_ne_nil_of_left_ne_nil (by decide) rest)⟩
      refine ⟨c, by rw [hc]; rfl, ?_⟩
      rcases List.mem_append.mp (List.mem_of_getLast? hc) with hmem | hmem
      · exact ne_of_mem_of_not_mem hmem (by decide)
      · exact ne_of_mem_of_not_mem hmem hrest
    obtain ⟨c, hc, hne⟩ := hbefore
    have hskip : splitMatches (includeLine chars).matchAt _ _ _ = _ :=
      splitMatches_skip ("include".toList ++ rest) ('\n' :: sourceCode) (some '#')
    have hnone : (includeLine chars).matchAt (some c) ('\n' :: sourceCode) = none :=
      Pattern.atLineStarts _ c _ hne
    rw [hc, splitMatches, hnone] at hskip
    change splitMatches _ 0 none ('#' :: ("include".toList ++ rest ++ '\n' :: sourceCode)) = _
    change (includeLine chars).matchAt none ('#' :: ("include".toList ++ rest ++ '\n' :: sourceCode)) = _ at hmatch
    rw [splitMatches, hmatch]
    dsimp only
    rw [List.length_append, Nat.add_sub_cancel, hskip, splitMatches_congr (blind_includeLine sourceCode)]
    congr 2
    rw [Nat.add_right_comm, Nat.add_sub_cancel]
    have htaken : ('#' :: ("include".toList ++ rest) ++ '\n' :: sourceCode).take
        ('#' :: ("include".toList ++ rest)).length = '#' :: ("include".toList ++ rest) := List.take_left
    exact congrArg₂ Prod.mk htaken rfl
  change (splitMatches (includeLine chars).matchAt 0 none _).filterMap _ = _
  rw [hpieces]
  rfl

/-- The includes of a text with others put on top are those and its own. -/
theorem existingIncludes_topOf {lines : List String} (hlines : lines ⊆ fixIncludes) (sourceCode : List Char) :
    existingIncludes chars (topOf lines ++ sourceCode) =
      lines.map String.toList ++ existingIncludes chars sourceCode := by
  induction lines with
  | nil => rfl
  | cons line lines ih =>
    obtain ⟨hline, hlines⟩ := List.cons_subset.mp hlines
    rw [topOf_cons, List.append_assoc, List.cons_append, existingIncludes_cons hline, ih hlines]
    rfl

/-- A line of an include has no blanks at its ends. -/
theorem stripBlanks_fixInclude {line : String} (hline : line ∈ fixIncludes) :
    stripBlanks chars line.toList = line.toList := by
  have hends : ∀ line ∈ fixIncludes, line.toList.head? = some '#' ∧ line.toList.getLast? = some '>' := by decide
  obtain ⟨hhead, hlast⟩ := hends line hline
  have hhash : chars.space '#' = false := by rw [chars.space_ascii _ (by decide)]; rfl
  have hclose : chars.space '>' = false := by rw [chars.space_ascii _ (by decide)]; rfl
  exact stripBlanks_eq_self (by rw [hhead]; exact hhash) (by rw [hlast]; exact hclose)

/-- Joining includes by line breaks puts each on its own line. -/
theorem intercalate_topOf {lines : List String} (hne : lines ≠ []) (sourceCode : List Char) :
    List.intercalate ['\n'] (lines.map String.toList) ++ '\n' :: sourceCode = topOf lines ++ sourceCode := by
  induction lines with
  | nil => exact absurd rfl hne
  | cons line lines ih =>
    cases lines with
    | nil => simp [topOf, List.intercalate]
    | cons line' lines =>
      have htail := ih (List.cons_ne_nil _ _)
      rw [topOf_cons, List.append_assoc, List.cons_append, ← htail]
      simp [List.intercalate]

/-- **Includes are put in front** that are not found included. -/
theorem addIncludesToSource_eq (sourceCode : List Char) {lines : List String} (hlines : lines ⊆ fixIncludes) :
    addIncludesToSource chars sourceCode (lines.map String.toList) =
      topOf (lines.filter fun line => line.toList ∉ existingIncludes chars sourceCode) ++ sourceCode := by
  have hstrip : (lines.map String.toList).map (stripBlanks chars) = lines.map String.toList := by
    rw [List.map_map]
    exact List.map_congr_left fun line hline => stripBlanks_fixInclude (hlines hline)
  have hne : (lines.map String.toList).filter (· ≠ []) = lines.map String.toList := by
    refine List.filter_eq_self.mpr fun text htext => ?_
    obtain ⟨line, hline, rfl⟩ := List.mem_map.mp htext
    obtain ⟨rest, heq, -⟩ := fixIncludes_line line (hlines hline)
    rw [heq]
    rfl
  have hfilter : (lines.map String.toList).filter (· ∉ existingIncludes chars sourceCode) =
      (lines.filter fun line => line.toList ∉ existingIncludes chars sourceCode).map String.toList :=
    List.filter_map
  simp only [addIncludesToSource, List.contains_eq_mem, ← decide_not]
  rw [hstrip, hne, hfilter]
  generalize lines.filter (fun line => line.toList ∉ existingIncludes chars sourceCode) = missing
  split
  · rename_i hnil
    rw [List.map_eq_nil_iff.mp hnil]
    rfl
  · rename_i hne
    exact intercalate_topOf (mt List.map_eq_nil_iff.mpr hne) sourceCode

/-- What is inferred from the errors of the compiler is one of the known includes. -/
theorem inferMissingPerformanceIncludes_subset (chars : CharClass) (performancePath : List Char)
    (compilerStderr : String) :
    inferMissingPerformanceIncludes chars performancePath compilerStderr ⊆ fixIncludes := by
  unfold inferMissingPerformanceIncludes
  split
  · exact List.nil_subset _
  · intro line hline
    have hrules : missingIncludeRules.map Prod.snd ⊆ fixIncludes := by
      decide
    rcases List.mem_append.mp (List.mem_eraseDups.mp hline) with hlegacy | hrequired
    · rcases List.mem_append.mp hlegacy with h | h
      · split at h
        · obtain rfl := List.mem_singleton.mp h
          decide
        · cases h
      · split at h
        · obtain rfl := List.mem_singleton.mp h
          decide
        · cases h
    · obtain ⟨rule, hrule, h⟩ := List.mem_filterMap.mp hrequired
      split at h
      · obtain rfl := Option.some.inj h
        exact hrules (List.mem_map_of_mem hrule)
      · cases h

/-! ## The fixed text without the includes in front -/

/-- The definition that is to be replaced: the one found, if the text needs a library. -/
def definitionToReplace (chars : CharClass) (updatedCode : List Char) : List Char :=
  if ∃ marker ∈ md5Markers, marker.toList <:+: updatedCode then
    findCppFunctionDefinitionByName chars updatedCode "print_file_md5"
  else []

/-- What a fix makes of a text, without the includes that it puts in front. -/
def fixedText (chars : CharClass) (caseClass : CaseClass) (sourceCode : List Char) : List Char :=
  let updatedCode := sanitizeRustLibcStderr chars (stripModelCodeMarkers chars caseClass sourceCode)
  let definition := definitionToReplace chars updatedCode
  if definition = [] then updatedCode
  else replaceFirst definition portablePrintFileMd5Helper (cutMd5Includes chars updatedCode)

/-- **A fix puts includes in front of the fixed text**, none of which is found included there. -/
theorem autoFixedCode_eq (performancePath : List Char) (stderr : String) (originalCode : List Char) :
    ∃ lines ⊆ fixIncludes,
      (∀ line ∈ lines, line.toList ∉ existingIncludes chars (fixedText chars caseClass originalCode)) ∧
      autoFixedCode chars caseClass performancePath stderr originalCode =
        topOf lines ++ fixedText chars caseClass originalCode := by
  have hadded : ∃ lines ⊆ fixIncludes,
      (∀ line ∈ lines, line.toList ∉ existingIncludes chars (fixedText chars caseClass originalCode)) ∧
      sanitizePerformanceGeneratedCode chars caseClass originalCode =
        topOf lines ++ fixedText chars caseClass originalCode := by
    unfold sanitizePerformanceGeneratedCode fixedText definitionToReplace
    dsimp only
    generalize sanitizeRustLibcStderr chars (stripModelCodeMarkers chars caseClass originalCode) = updatedCode
    by_cases hmarker : ∃ marker ∈ md5Markers, marker.toList <:+: updatedCode
    · rw [if_neg (not_not.mpr hmarker), if_pos hmarker]
      split
      · exact ⟨[], List.nil_subset _, List.forall_mem_nil _, rfl⟩
      · generalize replaceFirst (findCppFunctionDefinitionByName chars updatedCode "print_file_md5")
          portablePrintFileMd5Helper (cutMd5Includes chars updatedCode) = replaced
        have hlines : ["#include <cstdio>", "#include <cstdlib>"] ⊆ fixIncludes := by decide
        exact ⟨_, fun line hline => hlines (List.mem_of_mem_filter hline),
          fun line hline => of_decide_eq_true (List.mem_filter.mp hline).2, addIncludesToSource_eq replaced hlines⟩
    · rw [if_pos hmarker, if_neg hmarker, if_pos rfl, ite_self]
      exact ⟨[], List.nil_subset _, List.forall_mem_nil _, rfl⟩
  obtain ⟨lines, hlines, hnew, hsanitized⟩ := hadded
  have hinferred := inferMissingPerformanceIncludes_subset chars performancePath stderr
  rw [autoFixedCode, addIncludesToSource_eq _ hinferred, hsanitized, existingIncludes_topOf hlines]
  generalize hadd : (inferMissingPerformanceIncludes chars performancePath stderr).filter (fun line =>
    line.toList ∉ lines.map String.toList ++ existingIncludes chars (fixedText chars caseClass originalCode)) = added
  refine ⟨added ++ lines, List.append_subset.mpr ⟨?_, hlines⟩, ?_, ?_⟩
  · rw [← hadd]
    exact fun line hline => hinferred (List.mem_of_mem_filter hline)
  · intro line hline
    rcases List.mem_append.mp hline with h | h
    · rw [← hadd] at h
      exact fun hin => of_decide_eq_true (List.mem_filter.mp h).2 (List.mem_append_right _ hin)
    · exact hnew line h
  · rw [topOf, topOf, topOf, List.flatMap_append, List.append_assoc]

end Assure
