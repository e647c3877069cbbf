import Assure.Library.CTokens
import Assure.Library.Taking

/-!
# Semicolons after extern declarations

`repairMissingExternSemicolons` reads a line that begins with `extern ` together with the lines that look like its
continuation, and puts a `;` after the last of them unless it has one or there is a brace. Where the declaration
ends is guessed from the layout, so what comes out has the semicolons that belong there exactly for texts laid out
as the guess expects (`Laid`). A second pass changes nothing, whatever the text.

Where semicolons are missing is data of the text, and is not derived from a grammar of C. The
equivalence is for texts whose literals end on their line (`CodeLines`). That the loop ends and that
a second pass changes nothing is proved for every text.
-/

namespace Assure

open Assure.Library

/-! ## Lines -/

/-- The characters at which `splitlines` ends a line, in a text without `\r`: reading in text mode leaves none. -/
structure LineBreaks (chars : CharClass) where
  isBreak : Char → Bool
  ascii : ∀ c : Char, c.toNat < 128 → isBreak c = [10, 11, 12, 28, 29, 30].contains c.toNat
  blank : ∀ c, isBreak c = true → chars.space c = true

/-- `text.splitlines(keepends=True)` -/
def splitLines {chars : CharClass} (breaks : LineBreaks chars) : List Char → List (List Char)
  | [] => []
  | c :: rest =>
    if breaks.isBreak c then [c] :: splitLines breaks rest
    else
      match splitLines breaks rest with
      | [] => [[c]]
      | line :: lines => (c :: line) :: lines

section Repair

variable (chars : CharClass)

/-- `^(?:\*+\s*)?[_A-Za-z]\w*\s*(?:\(|\[|;|,|=)` -/
def declarator : Pattern Unit := do
  Pattern.optional do
    let _ ← Pattern.many1 (· == '*')
    let _ ← Pattern.many chars.space
    return ()
  let _ ← Pattern.one fun c => c == '_' || c.isAlpha
  let _ ← Pattern.many chars.word
  let _ ← Pattern.many chars.space
  let _ ← Pattern.one fun c => ['(', '[', ';', ',', '='].contains c
  return ()

/-- `canContinueExternDeclaration` -/
def canContinueExternDeclaration (declarationText nextLine : List Char) : Bool :=
  let nextStrippedLine := stripBlanks chars nextLine
  if nextStrippedLine = [] then false
  else if nextStrippedLine = ['{'] then true
  else if ';' ∈ declarationText ∨ '{' ∈ declarationText then false
  else if "__attribute__".toList.isPrefixOf nextStrippedLine || "__asm__".toList.isPrefixOf nextStrippedLine then true
  else if nextLine.head?.any chars.space then true
  else ((declarator chars).first? nextStrippedLine).isSome

/-- `strippedLine.startswith("extern ")` -/
def externLine (line : List Char) : Bool := ['e', 'x', 't', 'e', 'r', 'n', ' '].isPrefixOf (stripBlanks chars line)

/-- The inner loop: the lines that go on with a declaration, and the lines after them. -/
def gatherBlock (declarationText : List Char) : List (List Char) → List (List Char) × List (List Char)
  | [] => ([], [])
  | nextLine :: lines =>
    if canContinueExternDeclaration chars declarationText nextLine then
      let (block, rest) := gatherBlock (declarationText ++ nextLine) lines
      (nextLine :: block, rest)
    else ([], nextLine :: lines)

/-- Gathering a declaration loses no line. -/
theorem gatherBlock_append (declarationText : List Char) (lines : List (List Char)) :
    (gatherBlock chars declarationText lines).1 ++ (gatherBlock chars declarationText lines).2 = lines := by
  induction lines generalizing declarationText with
  | nil => rfl
  | cons line lines ih =>
    rw [gatherBlock]
    split
    · exact congrArg (line :: ·) (ih _)
    · rfl

/-- The line that gets the `;`, unless it is blank or has one. -/
def closeLine (line : List Char) : List Char :=
  let lastLine := line.rdropWhile (· == '\n')
  if rstripBlanks chars lastLine ≠ [] ∧ (rstripBlanks chars lastLine).getLast? ≠ some ';' then
    rstripBlanks chars lastLine ++ [';', '\n']
  else line

/-- A block with its `;`, which goes after its last line that is not blank. -/
def closeBlock (declarationBlock : List (List Char)) : List (List Char) :=
  if '{' ∈ declarationBlock.flatten then declarationBlock
  else
    let blanks := declarationBlock.reverse.takeWhile fun line => stripBlanks chars line = []
    match declarationBlock.reverse.dropWhile fun line => stripBlanks chars line = [] with
    | [] => declarationBlock
    | lastLine :: front => front.reverse ++ closeLine chars lastLine :: blanks.reverse

/-- The lines that come out. -/
def repairLines : List (List Char) → List (List Char)
  | [] => []
  | line :: lines =>
    if externLine chars line then
      closeBlock chars (line :: (gatherBlock chars line lines).1) ++ repairLines (gatherBlock chars line lines).2
    else line :: repairLines lines
termination_by lines => lines.length
decreasing_by
  · have hlength := congrArg List.length (gatherBlock_append chars line lines)
    rw [List.length_append] at hlength
    rw [List.length_cons]
    omega
  · exact Nat.lt_succ_self _

end Repair

/-- **`repairMissingExternSemicolons`** -/
def repairMissingExternSemicolons {chars : CharClass} (breaks : LineBreaks chars) (filteredSource : List Char) :
    List Char :=
  (repairLines chars (splitLines breaks filteredSource)).flatten

/-! ## Blocks -/

section Blocks

variable {chars : CharClass}

/-- **Each line goes on** with the lines before it. -/
def Continues (chars : CharClass) : List Char → List (List Char) → Prop
  | _, [] => True
  | declarationText, nextLine :: lines =>
    canContinueExternDeclaration chars declarationText nextLine = true ∧
      Continues chars (declarationText ++ nextLine) lines

/-- **A block** before the rest of the lines: it begins with an extern line, its lines go on, and the next line
does not. -/
def IsBlock (chars : CharClass) (block rest : List (List Char)) : Prop :=
  ∃ line lines, block = line :: lines ∧ externLine chars line = true ∧ Continues chars line lines ∧
    ∀ nextLine ∈ rest.head?, canContinueExternDeclaration chars block.flatten nextLine = false

/-- What is gathered goes on with the declaration, and the line it stops at does not. -/
theorem gatherBlock_spec (declarationText : List Char) (lines : List (List Char)) :
    Continues chars declarationText (gatherBlock chars declarationText lines).1 ∧
      ∀ nextLine ∈ (gatherBlock chars declarationText lines).2.head?,
        canContinueExternDeclaration chars
          (declarationText ++ (gatherBlock chars declarationText lines).1.flatten) nextLine = false := by
  induction lines generalizing declarationText with
  | nil => exact ⟨trivial, fun _ h => by cases h⟩
  | cons line lines ih =>
    rw [gatherBlock]
    split
    · rename_i hcontinues
      obtain ⟨hmore, hstop⟩ := ih (declarationText ++ line)
      refine ⟨⟨hcontinues, hmore⟩, ?_⟩
      rw [List.append_assoc] at hstop
      exact hstop
    · rename_i hstop
      refine ⟨trivial, fun nextLine hnext => ?_⟩
      obtain rfl : line = nextLine := Option.some.inj hnext
      rw [List.flatten_nil, List.append_nil]
      exact Bool.eq_false_iff.mpr hstop

/-- A block that goes on with the declaration up to a line that does not is what is gathered. -/
theorem gatherBlock_eq {declarationText : List Char} {block rest : List (List Char)}
    (hblock : Continues chars declarationText block)
    (hrest : ∀ nextLine ∈ rest.head?,
      canContinueExternDeclaration chars (declarationText ++ block.flatten) nextLine = false) :
    gatherBlock chars declarationText (block ++ rest) = (block, rest) := by
  induction block generalizing declarationText with
  | nil =>
    rw [List.flatten_nil, List.append_nil] at hrest
    cases rest with
    | nil => rfl
    | cons line rest =>
      rw [List.nil_append, gatherBlock, if_neg (by rw [hrest line rfl]; decide)]
  | cons line block ih =>
    obtain ⟨hline, hblock⟩ := hblock
    rw [List.flatten_cons, ← List.append_assoc] at hrest
    rw [List.cons_append, gatherBlock, if_pos hline, ih hblock hrest]

/-- **The lines in blocks.** -/
theorem isBlock_gather {line : List Char} (hopens : externLine chars line = true) (lines : List (List Char)) :
    IsBlock chars (line :: (gatherBlock chars line lines).1) (gatherBlock chars line lines).2 :=
  ⟨line, _, rfl, hopens, gatherBlock_spec line lines⟩

/-- A declaration is closed and the repair goes on behind it. -/
theorem repairLines_block {block rest : List (List Char)} (h : IsBlock chars block rest) :
    repairLines chars (block ++ rest) = closeBlock chars block ++ repairLines chars rest := by
  obtain ⟨line, lines, rfl, hopens, hlines, hrest⟩ := h
  rw [List.cons_append, repairLines, if_pos hopens, gatherBlock_eq hlines hrest]

/-- A line that begins no declaration stays. -/
theorem repairLines_other {line : List Char} (h : externLine chars line = false) (lines : List (List Char)) :
    repairLines chars (line :: lines) = line :: repairLines chars lines := by
  rw [repairLines, if_neg (by rw [h]; decide)]

/-- **Induction along the blocks.** -/
theorem blocks_induction {P : List (List Char) → Prop} (nil : P [])
    (other : ∀ line lines, externLine chars line = false → P lines → P (line :: lines))
    (block : ∀ block rest, IsBlock chars block rest → P rest → P (block ++ rest)) (lines : List (List Char)) :
    P lines := by
  induction hlength : lines.length using Nat.strong_induction_on generalizing lines with
  | _ n ih =>
    cases lines with
    | nil => exact nil
    | cons line lines =>
      rw [List.length_cons] at hlength
      cases hopens : externLine chars line with
      | false => exact other line lines hopens (ih lines.length (by omega) lines rfl)
      | true =>
        have happend := gatherBlock_append chars line lines
        have hrest := congrArg List.length happend
        rw [List.length_append] at hrest
        have hP := block _ _ (isBlock_gather hopens lines)
          (ih (gatherBlock chars line lines).2.length (by omega) _ rfl)
        rw [List.cons_append, happend] at hP
        exact hP

/-- No line of a block is blank. -/
theorem IsBlock.strip_ne {block rest : List (List Char)} (h : IsBlock chars block rest) :
    ∀ line ∈ block, stripBlanks chars line ≠ [] := by
  obtain ⟨line, lines, rfl, hopens, hlines, -⟩ := h
  have hcontinues : ∀ {lines : List (List Char)} {declarationText : List Char},
      Continues chars declarationText lines → ∀ l ∈ lines, stripBlanks chars l ≠ [] := by
    intro lines
    induction lines with
    | nil => exact fun _ l hl => absurd hl List.not_mem_nil
    | cons line lines ih =>
      intro declarationText h l hl hblank
      rcases List.mem_cons.mp hl with rfl | hl
      · have hline := h.1
        rw [canContinueExternDeclaration, if_pos hblank] at hline
        exact Bool.noConfusion hline
      · exact ih h.2 l hl hblank
  intro l hl hblank
  rcases List.mem_cons.mp hl with rfl | hl
  · rw [externLine, hblank] at hopens
    exact Bool.noConfusion hopens
  · exact hcontinues hlines l hl hblank

/-- A declaration has a last line, the one that is closed. -/
theorem IsBlock.exists_last {block rest : List (List Char)} (h : IsBlock chars block rest) :
    ∃ front last, block = front ++ [last] := by
  obtain ⟨line, lines, rfl, -⟩ := h
  rcases List.eq_nil_or_concat (line :: lines) with hnil | ⟨front, last, hconcat⟩
  · cases hnil
  · exact ⟨front, last, hconcat.trans (List.concat_eq_append ..)⟩

/-- A line with the semicolon. -/
def withSemicolon (chars : CharClass) (line : List Char) : List Char := rstripBlanks chars line ++ [';', '\n']

/-- Where a block gets a semicolon: it has no brace and does not end in one. -/
def NeedsSemicolon (chars : CharClass) (block : List (List Char)) (last : List Char) : Prop :=
  '{' ∉ block.flatten ∧ (rstripBlanks chars last).getLast? ≠ some ';'

instance (block : List (List Char)) (last : List Char) : Decidable (NeedsSemicolon chars block last) :=
  inferInstanceAs (Decidable (_ ∧ _))

/-- Line breaks at the end are blanks. -/
theorem rstripBlanks_rdropWhile (line : List Char) :
    rstripBlanks chars (line.rdropWhile (· == '\n')) = rstripBlanks chars line := by
  have hblank : ∀ c ∈ (line.reverse.takeWhile (· == '\n')).reverse, chars.space c = true := by
    intro c hc
    obtain rfl : c = '\n' := by simpa using List.mem_takeWhile_imp (List.mem_reverse.mp hc)
    exact chars.space_ascii '\n' (by decide)
  have hsplit : line = line.rdropWhile (· == '\n') ++ (line.reverse.takeWhile (· == '\n')).reverse := by
    rw [List.rdropWhile, ← List.reverse_append, List.takeWhile_append_dropWhile, List.reverse_reverse]
  nth_rewrite 2 [hsplit]
  rw [rstripBlanks_append hblank]

/-- A line that is not blank has something left. -/
theorem rstripBlanks_ne_nil {line : List Char} (h : stripBlanks chars line ≠ []) : rstripBlanks chars line ≠ [] := by
  obtain ⟨front, -, hsplit⟩ := exists_rstripBlanks_stripBlanks h
  rw [hsplit]
  exact List.append_ne_nil_of_right_ne_nil _ h

/-- **A block that is put out**: its last line has the semicolon if it needs one. -/
theorem closeBlock_eq {front : List (List Char)} {last : List Char} (hlast : stripBlanks chars last ≠ []) :
    closeBlock chars (front ++ [last]) =
      front ++ [if NeedsSemicolon chars (front ++ [last]) last then withSemicolon chars last else last] := by
  have hdrop : (front ++ [last]).reverse.dropWhile (fun line => stripBlanks chars line = []) =
      last :: front.reverse := by
    rw [List.reverse_append, List.reverse_singleton, List.singleton_append,
      List.dropWhile_cons_of_neg (by simpa using hlast)]
  have htake : (front ++ [last]).reverse.takeWhile (fun line => stripBlanks chars line = []) = [] := by
    rw [List.reverse_append, List.reverse_singleton, List.singleton_append,
      List.takeWhile_cons_of_neg (by simpa using hlast)]
  unfold closeBlock
  by_cases hbrace : '{' ∈ (front ++ [last]).flatten
  · rw [if_pos hbrace, if_neg fun h => h.1 hbrace]
  · simp only [if_false, hdrop, htake, List.reverse_reverse, List.reverse_nil, closeLine,
      rstripBlanks_rdropWhile, NeedsSemicolon, hbrace, not_false_eq_true, true_and, ne_eq,
      rstripBlanks_ne_nil hlast, withSemicolon]

end Blocks

/-! ## A second pass -/

section Again

variable {chars : CharClass}

/-- A semicolon is no blank. -/
theorem semicolon_not_space : chars.space ';' = false := by
  rw [chars.space_ascii ';' (by decide)]
  decide

/-- The semicolon is set behind what the line says. -/
theorem stripBlanks_withSemicolon {line : List Char} (h : stripBlanks chars line ≠ []) :
    stripBlanks chars (withSemicolon chars line) = stripBlanks chars line ++ [';'] := by
  obtain ⟨front, hfront, hsplit⟩ := exists_rstripBlanks_stripBlanks h
  have hnewline : ∀ c ∈ ['\n'], chars.space c = true := by
    intro c hc
    rw [List.mem_singleton.mp hc]
    exact chars.space_ascii '\n' (by decide)
  have htext : withSemicolon chars line = front ++ (stripBlanks chars line ++ [';']) ++ ['\n'] := by
    rw [withSemicolon, hsplit]
    simp
  rw [htext]
  refine stripBlanks_around hfront hnewline ?_ ?_
  · rw [List.head?_append_of_ne_nil _ h]
    exact head?_stripBlanks line
  · rw [List.getLast?_concat, Option.any_some, semicolon_not_space]

/-- It is set behind the last character that is no blank. -/
theorem rstripBlanks_withSemicolon (line : List Char) :
    rstripBlanks chars (withSemicolon chars line) = rstripBlanks chars line ++ [';'] := by
  have hnewline : ∀ c ∈ ['\n'], chars.space c = true := by
    intro c hc
    rw [List.mem_singleton.mp hc]
    exact chars.space_ascii '\n' (by decide)
  have htext : withSemicolon chars line = rstripBlanks chars line ++ [';'] ++ ['\n'] := by simp [withSemicolon]
  rw [htext, rstripBlanks_append hnewline]
  refine rstripBlanks_eq_self ?_
  rw [List.getLast?_concat, Option.any_some, semicolon_not_space]

/-- A line begins the same with the semicolon. -/
theorem head?_withSemicolon {line : List Char} (h : stripBlanks chars line ≠ []) :
    (withSemicolon chars line).head? = line.head? := by
  obtain ⟨back, -, hsplit⟩ := @exists_rstripBlanks chars line
  rw [withSemicolon, List.head?_append_of_ne_nil _ (rstripBlanks_ne_nil h)]
  nth_rewrite 2 [hsplit]
  rw [List.head?_append_of_ne_nil _ (rstripBlanks_ne_nil h)]

/-- A declaration stays one with it. -/
theorem externLine_withSemicolon {line : List Char} (h : externLine chars line = true) :
    externLine chars (withSemicolon chars line) = true := by
  have hne : stripBlanks chars line ≠ [] := by
    intro hblank
    rw [externLine, hblank] at h
    exact Bool.noConfusion h
  rw [externLine, List.isPrefixOf_iff_prefix] at h ⊢
  rw [stripBlanks_withSemicolon hne]
  exact h.trans (List.prefix_append _ _)

/-- A pattern for the beginning of a line matches when more follows. -/
theorem declarator_append {text : List Char} (h : ((declarator chars).first? text).isSome) :
    ((declarator chars).first? (text ++ [';'])).isSome := by
  have hextends : Pattern.Extends chars (declarator chars) :=
    .bind (.orElse (.bind (.many1 _) fun _ => .bind (.many _) fun _ => .pure _) (.pure _)) fun _ =>
      .bind (.one _) fun _ => .bind (.many _) fun _ => .bind (.many _) fun _ => .bind (.one _) fun _ => .pure _
  have hword : ([';'] : List Char).head?.any chars.word = false := by
    show chars.word ';' = false
    rw [chars.word_ascii ';' (by decide)]
    decide
  obtain ⟨a, ha⟩ := Option.isSome_iff_exists.mp h
  obtain ⟨cursor, hcursor⟩ := Pattern.of_first? ha
  obtain ⟨after, -, hway⟩ := hextends [';'] rfl hword hcursor
  obtain ⟨first, hfirst⟩ := List.exists_cons_of_ne_nil (List.ne_nil_of_mem hway)
  obtain ⟨ways, hways⟩ := hfirst
  rw [Pattern.first?, hways]
  rfl

/-- **A line goes on with its semicolon, too.** -/
theorem canContinue_withSemicolon {declarationText line : List Char} (hbrace : stripBlanks chars line ≠ ['{'])
    (h : canContinueExternDeclaration chars declarationText line = true) :
    canContinueExternDeclaration chars declarationText (withSemicolon chars line) = true := by
  have hne : stripBlanks chars line ≠ [] := by
    intro hblank
    rw [canContinueExternDeclaration, if_pos hblank] at h
    exact Bool.noConfusion h
  have hstart : ∀ text : List Char, text.isPrefixOf (stripBlanks chars line) = true →
      text.isPrefixOf (stripBlanks chars line ++ [';']) = true := by
    intro text htext
    rw [List.isPrefixOf_iff_prefix] at htext ⊢
    exact htext.trans (List.prefix_append _ _)
  have hne' : stripBlanks chars line ++ [';'] ≠ [] := List.append_ne_nil_of_left_ne_nil hne _
  have hbrace' : stripBlanks chars line ++ [';'] ≠ ['{'] := by
    intro heq
    have hlast := congrArg List.getLast? heq
    rw [List.getLast?_concat] at hlast
    exact absurd (Option.some.inj hlast) (by decide)
  unfold canContinueExternDeclaration at h ⊢
  rw [stripBlanks_withSemicolon hne, head?_withSemicolon hne, if_neg hne', if_neg hbrace']
  rw [if_neg hne, if_neg hbrace] at h
  split at h
  · cases h
  · rename_i hmarks
    rw [if_neg hmarks]
    split at h
    · rename_i hattribute
      rw [if_pos]
      rcases Bool.or_eq_true_iff.mp hattribute with hattribute | hattribute
      · rw [hstart _ hattribute, Bool.true_or]
      · rw [hstart _ hattribute, Bool.or_true]
    · split
      · rfl
      · split at h
        · rename_i hspace
          rw [if_pos hspace]
        · rename_i hspace
          rw [if_neg hspace]
          exact declarator_append h

/-- Nothing but a brace goes on after a semicolon or a brace. -/
theorem canContinue_closed {declarationText line : List Char} (h : ';' ∈ declarationText ∨ '{' ∈ declarationText)
    (hbrace : stripBlanks chars line ≠ ['{']) : canContinueExternDeclaration chars declarationText line = false := by
  simp only [canContinueExternDeclaration, if_neg hbrace, if_pos h, ite_self]

/-- The gathering does not stop at a line that only opens a brace. -/
theorem not_brace_of_stop {declarationText line : List Char}
    (h : canContinueExternDeclaration chars declarationText line = false) : stripBlanks chars line ≠ ['{'] := by
  intro hbrace
  rw [canContinueExternDeclaration, if_neg (by rw [hbrace]; decide), if_pos hbrace] at h
  exact Bool.noConfusion h

/-- A line with a semicolon is no line that only opens a brace. -/
theorem withSemicolon_not_brace {line : List Char} (h : stripBlanks chars line ≠ []) :
    stripBlanks chars (withSemicolon chars line) ≠ ['{'] := by
  rw [stripBlanks_withSemicolon h]
  intro heq
  have hlast := congrArg List.getLast? heq
  rw [List.getLast?_concat] at hlast
  exact absurd (Option.some.inj hlast) (by decide)

/-- The first line that is put out is the first line, perhaps with its semicolon. -/
theorem head?_repairLines {lines : List (List Char)} {line : List Char} (h : line ∈ (repairLines chars lines).head?) :
    ∃ first ∈ lines.head?, line = first ∨ stripBlanks chars first ≠ [] ∧ line = withSemicolon chars first := by
  cases lines with
  | nil =>
    rw [repairLines] at h
    cases h
  | cons first lines =>
    refine ⟨first, rfl, ?_⟩
    cases hopens : externLine chars first with
    | false =>
      rw [repairLines_other hopens] at h
      exact .inl (Option.some.inj h).symm
    | true =>
      have hblock := isBlock_gather hopens lines
      obtain ⟨front, last, hconcat⟩ := hblock.exists_last
      have hlast := hblock.strip_ne last (by rw [hconcat]; simp)
      rw [repairLines, if_pos hopens, hconcat, closeBlock_eq hlast] at h
      cases front with
      | nil =>
        obtain rfl : first = last := (List.cons.inj hconcat).1
        rw [List.nil_append, List.singleton_append, List.head?_cons] at h
        split at h
        · exact .inr ⟨hlast, (Option.some.inj h).symm⟩
        · exact .inl (Option.some.inj h).symm
      | cons head front =>
        obtain rfl : first = head := (List.cons.inj hconcat).1
        exact .inl (Option.some.inj h).symm

/-- A block goes on with the declaration when its last line has been closed. -/
theorem Continues.withSemicolon {last : List Char} (hbrace : stripBlanks chars last ≠ ['{']) :
    ∀ {front : List (List Char)} {declarationText : List Char}, Continues chars declarationText (front ++ [last]) →
      Continues chars declarationText (front ++ [withSemicolon chars last])
  | [], _, h => ⟨canContinue_withSemicolon hbrace h.1, trivial⟩
  | _ :: _, _, h => ⟨h.1, Continues.withSemicolon hbrace h.2⟩

/-- **A block is a block again**, and gets no second semicolon. -/
theorem IsBlock.again {front rest : List (List Char)} {last : List Char}
    (h : IsBlock chars (front ++ [last]) rest) :
    IsBlock chars (closeBlock chars (front ++ [last])) (repairLines chars rest) ∧
      closeBlock chars (closeBlock chars (front ++ [last])) = closeBlock chars (front ++ [last]) := by
  have hlast := h.strip_ne last (by simp)
  have hnext : ∀ {declarationText : List Char}, (';' ∈ declarationText ∨ '{' ∈ declarationText) →
      ∀ nextLine ∈ (repairLines chars rest).head?,
        canContinueExternDeclaration chars declarationText nextLine = false := by
    intro declarationText hclosed nextLine hnext
    obtain ⟨line, lines, -, -, -, hstop⟩ := h
    obtain ⟨first, hfirst, hcases⟩ := head?_repairLines hnext
    refine canContinue_closed hclosed ?_
    rcases hcases with rfl | ⟨hne, rfl⟩
    · exact not_brace_of_stop (hstop _ hfirst)
    · exact withSemicolon_not_brace hne
  rw [closeBlock_eq hlast]
  by_cases hneeds : NeedsSemicolon chars (front ++ [last]) last
  · rw [if_pos hneeds]
    have hbrace : stripBlanks chars last ≠ ['{'] := by
      intro heq
      refine hneeds.1 ?_
      have hmem : '{' ∈ last := mem_stripBlanks (heq ▸ List.mem_singleton_self _)
      simp [hmem]
    have hne' : stripBlanks chars (Assure.withSemicolon chars last) ≠ [] := by
      rw [stripBlanks_withSemicolon hlast]
      exact List.append_ne_nil_of_right_ne_nil _ (List.cons_ne_nil _ _)
    constructor
    · obtain ⟨line, lines, hblock, hopens, hlines, -⟩ := h
      have hsemi : ';' ∈ (front ++ [Assure.withSemicolon chars last]).flatten := by simp [Assure.withSemicolon]
      cases front with
      | nil =>
        obtain ⟨rfl, rfl⟩ := List.cons.inj hblock
        exact ⟨_, [], rfl, externLine_withSemicolon hopens, trivial, hnext (.inl hsemi)⟩
      | cons first front =>
        obtain ⟨rfl, rfl⟩ := List.cons.inj hblock
        exact ⟨first, _, rfl, hopens, hlines.withSemicolon hbrace, hnext (.inl hsemi)⟩
    · rw [closeBlock_eq hne', if_neg]
      intro hagain
      refine hagain.2 ?_
      rw [rstripBlanks_withSemicolon, List.getLast?_concat]
  · rw [if_neg hneeds, closeBlock_eq hlast, if_neg hneeds]
    refine ⟨?_, rfl⟩
    have hclosed : ';' ∈ (front ++ [last]).flatten ∨ '{' ∈ (front ++ [last]).flatten := by
      by_cases hbrace : '{' ∈ (front ++ [last]).flatten
      · exact .inr hbrace
      · left
        have hsemi : (rstripBlanks chars last).getLast? = some ';' := by
          by_contra hsemi
          exact hneeds ⟨hbrace, hsemi⟩
        obtain ⟨back, -, hsplit⟩ := @exists_rstripBlanks chars last
        have hmem : ';' ∈ last := by
          rw [hsplit]
          exact List.mem_append_left _ (List.mem_of_getLast? hsemi)
        simp [hmem]
    obtain ⟨line, lines, hblock, hopens, hlines, -⟩ := h
    exact ⟨line, lines, hblock, hopens, hlines, hnext hclosed⟩

/-- **A second pass over the lines changes nothing.** -/
theorem repairLines_again (lines : List (List Char)) :
    repairLines chars (repairLines chars lines) = repairLines chars lines := by
  induction lines using @blocks_induction chars with
  | nil => rw [repairLines, repairLines]
  | other line lines hopens ih => rw [repairLines_other hopens, repairLines_other hopens, ih]
  | block block rest hblock ih =>
    obtain ⟨front, last, rfl⟩ := hblock.exists_last
    obtain ⟨hagain, hclosed⟩ := hblock.again
    rw [repairLines_block hblock, repairLines_block hagain, hclosed, ih]

end Again

/-! ## Where the semicolons go -/

section Marks

variable {chars : CharClass}

/-- **The lines that get a semicolon**: the last of each block that needs one. -/
inductive Marks (chars : CharClass) : List (List Char) → List Bool → Prop
  | nil : Marks chars [] []
  | other {line lines marks} : externLine chars line = false → Marks chars lines marks →
      Marks chars (line :: lines) (false :: marks)
  | block {front last rest marks} : IsBlock chars (front ++ [last]) rest → Marks chars rest marks →
      Marks chars (front ++ last :: rest)
        (List.replicate front.length false ++ decide (NeedsSemicolon chars (front ++ [last]) last) :: marks)

/-- Every row of lines can be marked with where the repair sets semicolons. -/
theorem exists_marks (lines : List (List Char)) : ∃ marks, Marks chars lines marks := by
  induction lines using @blocks_induction chars with
  | nil => exact ⟨[], .nil⟩
  | other line lines hopens ih =>
    obtain ⟨marks, hmarks⟩ := ih
    exact ⟨_, .other hopens hmarks⟩
  | block block rest hblock ih =>
    obtain ⟨front, last, rfl⟩ := hblock.exists_last
    obtain ⟨marks, hmarks⟩ := ih
    rw [List.append_assoc]
    exact ⟨_, .block hblock hmarks⟩

/-- A line, with the semicolon where it is marked. -/
def markedLine (chars : CharClass) (line : List Char) (mark : Bool) : List Char :=
  if mark then withSemicolon chars line else line

/-- There is one mark for each line. -/
theorem Marks.length_eq {lines : List (List Char)} {marks : List Bool} (h : Marks chars lines marks) :
    marks.length = lines.length := by
  induction h with
  | nil => rfl
  | other _ _ ih => rw [List.length_cons, List.length_cons, ih]
  | block _ _ ih =>
    rw [List.length_append, List.length_append, List.length_replicate, List.length_cons, List.length_cons, ih]

/-- **What comes out**: the lines with the semicolons. -/
theorem Marks.repairLines_eq {lines : List (List Char)} {marks : List Bool} (h : Marks chars lines marks) :
    repairLines chars lines = List.zipWith (markedLine chars) lines marks := by
  induction h with
  | nil =>
    rw [repairLines]
    rfl
  | other hopens _ ih =>
    rw [repairLines_other hopens, ih]
    rfl
  | @block front last rest marks hblock _ ih =>
    have hfront : List.zipWith (markedLine chars) front (List.replicate front.length false) = front := by
      generalize front = lines
      induction lines with
      | nil => rfl
      | cons line lines ih => exact congrArg (line :: ·) ih
    have hsplit : front ++ last :: rest = (front ++ [last]) ++ rest := by simp
    rw [List.zipWith_append (by rw [List.length_replicate]), hfront, hsplit, repairLines_block hblock,
      closeBlock_eq (hblock.strip_ne last (by simp)), ih, List.append_assoc, List.zipWith_cons_cons]
    simp [markedLine]

end Marks

/-! ## The text again -/

section Text

variable {chars : CharClass} {breaks : LineBreaks chars}

/-- **Lines with their ends**; the last may have none. -/
inductive IsLines (breaks : LineBreaks chars) : List (List Char) → Prop
  | nil : IsLines breaks []
  | last {line} : line ≠ [] → (∀ c ∈ line, breaks.isBreak c = false) → IsLines breaks [line]
  | cons {body c lines} : (∀ d ∈ body, breaks.isBreak d = false) → breaks.isBreak c = true → IsLines breaks lines →
      IsLines breaks ((body ++ [c]) :: lines)

/-- A line ends at its first line break. -/
theorem splitLines_body {body : List Char} (h : ∀ d ∈ body, breaks.isBreak d = false) {c : Char}
    (hc : breaks.isBreak c = true) (rest : List Char) :
    splitLines breaks ((body ++ [c]) ++ rest) = (body ++ [c]) :: splitLines breaks rest := by
  induction body with
  | nil => rw [List.nil_append, List.singleton_append, splitLines, if_pos hc]
  | cons d body ih =>
    rw [List.cons_append, List.cons_append, splitLines, if_neg (by rw [h d List.mem_cons_self]; decide),
      ih fun e he => h e (List.mem_cons_of_mem d he)]

/-- Lines that were split are split again in the same way. -/
theorem splitLines_flatten {lines : List (List Char)} (h : IsLines breaks lines) :
    splitLines breaks lines.flatten = lines := by
  induction h with
  | nil => rfl
  | @last line hne hline =>
    rw [List.flatten_cons, List.flatten_nil, List.append_nil]
    induction line with
    | nil => exact absurd rfl hne
    | cons c line ih =>
      rw [splitLines, if_neg (by rw [hline c List.mem_cons_self]; decide)]
      cases line with
      | nil => rfl
      | cons d line => rw [ih (List.cons_ne_nil d line) fun e he => hline e (List.mem_cons_of_mem c he)]
  | cons hbody hc _ ih => rw [List.flatten_cons, splitLines_body hbody hc, ih]

/-- What is split are lines. -/
theorem isLines_splitLines (text : List Char) : IsLines breaks (splitLines breaks text) := by
  induction text with
  | nil => exact .nil
  | cons c text ih =>
    rw [splitLines]
    cases hc : breaks.isBreak c with
    | true =>
      rw [if_pos rfl]
      exact @IsLines.cons _ _ [] c _ (fun d hd => absurd hd List.not_mem_nil) hc ih
    | false =>
      rw [if_neg (by decide)]
      cases hlines : splitLines breaks text with
      | nil =>
        refine .last (List.cons_ne_nil c []) fun d hd => ?_
        rw [List.mem_singleton.mp hd, hc]
      | cons line lines =>
        rw [hlines] at ih
        have hcons : ∀ {body : List Char}, (∀ d ∈ body, breaks.isBreak d = false) →
            ∀ d ∈ c :: body, breaks.isBreak d = false := by
          intro body hbody d hd
          rcases List.mem_cons.mp hd with rfl | hd
          · exact hc
          · exact hbody d hd
        cases ih with
        | last hne hline => exact .last (List.cons_ne_nil c line) (hcons hline)
        | cons hbody hbreak hrest => exact .cons (hcons hbody) hbreak hrest

/-- A line with the semicolon is a line. -/
theorem withSemicolon_isLine {line body back : List Char} (hline : line = body ++ back)
    (hbody : ∀ d ∈ body, breaks.isBreak d = false) (hback : ∀ c ∈ back, chars.space c = true)
    {lines : List (List Char)} (h : IsLines breaks lines) : IsLines breaks (withSemicolon chars line :: lines) := by
  have hsemi : breaks.isBreak ';' = false := by
    rw [breaks.ascii ';' (by decide)]
    decide
  have hnewline : breaks.isBreak '\n' = true := by
    rw [breaks.ascii '\n' (by decide)]
    decide
  have htext : withSemicolon chars line = (rstripBlanks chars body ++ [';']) ++ ['\n'] := by
    rw [withSemicolon, hline, rstripBlanks_append hback]
    simp
  rw [htext]
  refine .cons (fun d hd => ?_) hnewline h
  rcases List.mem_append.mp hd with hd | hd
  · exact hbody d ((List.rdropWhile_prefix _ _).subset hd)
  · rw [List.mem_singleton.mp hd, hsemi]

/-- Lines stay lines when some are closed. -/
theorem IsLines.marked {lines : List (List Char)} (h : IsLines breaks lines) :
    ∀ {marks : List Bool}, marks.length = lines.length →
      IsLines breaks (List.zipWith (markedLine chars) lines marks) := by
  induction h with
  | nil => exact fun _ => .nil
  | @last line hne hline =>
    intro marks hlength
    obtain ⟨mark, rfl⟩ := List.length_eq_one_iff.mp hlength
    cases mark with
    | false => exact .last hne hline
    | true =>
      exact @withSemicolon_isLine _ _ line line [] (List.append_nil line).symm hline
        (fun c hc => absurd hc List.not_mem_nil) [] .nil
  | @cons body c lines hbody hc _ ih =>
    intro marks hlength
    cases marks with
    | nil => cases hlength
    | cons mark marks =>
      have hmore := ih (Nat.succ.inj hlength)
      cases mark with
      | false => exact .cons hbody hc hmore
      | true =>
        refine withSemicolon_isLine rfl hbody (fun d hd => ?_) hmore
        rw [List.mem_singleton.mp hd]
        exact breaks.blank c hc

/-- **A second pass changes nothing**, whatever the text. -/
theorem repairMissingExternSemicolons_again (text : List Char) :
    repairMissingExternSemicolons breaks (repairMissingExternSemicolons breaks text) =
      repairMissingExternSemicolons breaks text := by
  obtain ⟨marks, hmarks⟩ := @exists_marks chars (splitLines breaks text)
  have hlines : IsLines breaks (repairLines chars (splitLines breaks text)) := by
    rw [hmarks.repairLines_eq]
    exact (isLines_splitLines text).marked hmarks.length_eq
  unfold repairMissingExternSemicolons
  rw [splitLines_flatten hlines, repairLines_again]

end Text

/-! ## Texts that miss semicolons -/

/-- A line of a text, and whether the text misses a semicolon at the end of its code. -/
structure SourceLine where
  content : List Char
  missing : Bool

namespace SourceLine

/-- The line with its end. -/
def text (line : SourceLine) : List Char := line.content ++ ['\n']

end SourceLine

/-- The text. -/
def sourceText (lines : List SourceLine) : List Char := (lines.map SourceLine.text).flatten

/-- **The tokens that the text is to have**: its own and the missing semicolons. -/
def intendedTokens (chars : CharClass) (lines : List SourceLine) : List CLexeme :=
  insertAfter (.sym ';') (lineParts chars .fresh (lines.map SourceLine.content)) (lines.map SourceLine.missing)

/-- **Lines of C**: literals end on their line, and a line that misses a semicolon, or ends in code that is no
semicolon, has a token that is none. -/
def CodeLines (chars : CharClass) : CMode → List SourceLine → Prop
  | _, [] => True
  | mode, line :: lines =>
    ¬ (CMode.run chars mode (rstripBlanks chars line.content)).2.InLiteral ∧
      (line.missing = true ∨ ¬ (CMode.run chars mode line.content).2.Swallows ∧
          stripBlanks chars line.content ≠ [] ∧ (rstripBlanks chars line.content).getLast? ≠ some ';' →
        ∃ token ∈ (lineTokens chars mode line.content).1, token ≠ .sym ';') ∧
      CodeLines chars (lineTokens chars mode line.content).2 lines

/-- The mode after some lines. -/
def modeAfter (chars : CharClass) (mode : CMode) (lines : List SourceLine) : CMode :=
  lines.foldl (fun mode line => (lineTokens chars mode line.content).2) mode

/-- **A text laid out as the guess expects**: what is missing is missing at the ends of blocks, and a block that
misses no semicolon has a brace, or ends in a semicolon, a comment or a directive. -/
inductive Laid (chars : CharClass) : CMode → List SourceLine → Prop
  | nil {mode} : Laid chars mode []
  | other {mode line rest} : externLine chars line.text = false → line.missing = false →
      Laid chars (lineTokens chars mode line.content).2 rest → Laid chars mode (line :: rest)
  | block {mode front last rest} :
      IsBlock chars ((front ++ [last]).map SourceLine.text) (rest.map SourceLine.text) →
      (∀ line ∈ front, line.missing = false) →
      (last.missing = true ↔ NeedsSemicolon chars ((front ++ [last]).map SourceLine.text) last.text ∧
        ¬ (CMode.run chars (modeAfter chars mode front) last.content).2.Swallows) →
      Laid chars (modeAfter chars mode (front ++ [last])) rest → Laid chars mode (front ++ last :: rest)

section Layout

variable {chars : CharClass}

/-- The line break of a line is a blank at its end. -/
theorem rstripBlanks_text (line : SourceLine) :
    rstripBlanks chars line.text = rstripBlanks chars line.content := by
  refine rstripBlanks_append (fun c hc => ?_) line.content
  rw [List.mem_singleton.mp hc]
  exact chars.space_ascii '\n' (by decide)

/-- So it does not matter to what the line says. -/
theorem stripBlanks_text (line : SourceLine) : stripBlanks chars line.text = stripBlanks chars line.content := by
  refine stripBlanks_append (fun c hc => ?_) line.content
  rw [List.mem_singleton.mp hc]
  exact chars.space_ascii '\n' (by decide)

/-- Marks that are not swallowed. -/
def seen (marks swallows : List Bool) : List Bool := List.zipWith (fun mark swallow => mark && !swallow) marks swallows

/-- There is one part for each line. -/
theorem lineParts_length (mode : CMode) (contents : List (List Char)) :
    (lineParts chars mode contents).length = contents.length := by
  induction contents generalizing mode with
  | nil => rfl
  | cons content contents ih => rw [lineParts, List.length_cons, List.length_cons, ih]

/-- There is one answer for each line. -/
theorem lineSwallows_length (mode : CMode) (contents : List (List Char)) :
    (lineSwallows chars mode contents).length = contents.length := by
  induction contents generalizing mode with
  | nil => rfl
  | cons content contents ih => rw [lineSwallows, List.length_cons, List.length_cons, ih]

/-- **A line with its semicolon**: its tokens, and the semicolon unless it is swallowed. -/
theorem lineTokens_marked {mode : CMode} {content : List Char} (hnewline : '\n' ∉ content)
    (hliteral : ¬ (CMode.run chars mode (rstripBlanks chars content)).2.InLiteral) :
    lineTokens chars mode (rstripBlanks chars content ++ [';']) =
      ((lineTokens chars mode content).1 ++
          (if !decide (CMode.run chars mode content).2.Swallows then [.sym ';'] else []),
        (lineTokens chars mode content).2) := by
  obtain ⟨back, hback, hsplit⟩ := @exists_rstripBlanks chars content
  have hblanks : ∀ c ∈ back, chars.space c = true ∧ c ≠ '\n' := fun c hc =>
    ⟨hback c hc, fun h => hnewline (hsplit ▸ List.mem_append_right _ (h ▸ hc))⟩
  obtain ⟨htokens, hswallows, -⟩ := lineTokens_blanks hblanks hliteral
  rw [← hsplit] at htokens hswallows
  rw [lineTokens_semicolon hliteral, ← htokens]
  by_cases hs : (CMode.run chars mode content).2.Swallows
  · simp [hs, hswallows.mp hs]
  · simp [hs, mt hswallows.mpr hs]

/-- **The tokens of lines with their semicolons.** -/
theorem linesTokens_marked {lines : List SourceLine} :
    ∀ {mode : CMode} {marks : List Bool}, CodeLines chars mode lines →
      (∀ line ∈ lines, '\n' ∉ line.content) → marks.length = lines.length →
      linesTokens chars mode (List.zipWith (fun content mark =>
          if mark then rstripBlanks chars content ++ [';'] else content) (lines.map SourceLine.content) marks) =
        insertAfter (.sym ';') (lineParts chars mode (lines.map SourceLine.content))
          (seen marks (lineSwallows chars mode (lines.map SourceLine.content))) := by
  induction lines with
  | nil => exact fun _ _ _ => rfl
  | cons line lines ih =>
    intro mode marks hcode hnewline hlength
    obtain ⟨mark, marks, rfl⟩ := List.exists_cons_of_ne_nil (List.ne_nil_of_length_eq_add_one hlength)
    obtain ⟨hliteral, -, hrest⟩ := hcode
    have hmore := @ih (lineTokens chars mode line.content).2 marks hrest
      (fun l hl => hnewline l (List.mem_cons_of_mem line hl)) (Nat.succ.inj hlength)
    have hmarked := lineTokens_marked (hnewline line List.mem_cons_self) hliteral
    rw [List.map_cons, List.zipWith_cons_cons, linesTokens, lineParts, lineSwallows, seen, List.zipWith_cons_cons,
      insertAfter, ← seen, ← hmore]
    cases mark with
    | false => rfl
    | true => simp only [if_true, hmarked, List.append_assoc, Bool.true_and]

/-- A line that is marked is not blank and does not end in a semicolon. -/
theorem Marks.marked {lines : List (List Char)} {marks : List Bool} (h : Marks chars lines marks) :
    ∀ pair ∈ lines.zip marks, pair.2 = true →
      stripBlanks chars pair.1 ≠ [] ∧ (rstripBlanks chars pair.1).getLast? ≠ some ';' := by
  induction h with
  | nil => exact fun _ h => absurd h List.not_mem_nil
  | other _ _ ih =>
    intro pair hpair hmark
    rcases List.mem_cons.mp hpair with rfl | hpair
    · cases hmark
    · exact ih pair hpair hmark
  | @block front last rest marks hblock _ ih =>
    intro pair hpair hmark
    rw [List.zip_append (by rw [List.length_replicate])] at hpair
    rcases List.mem_append.mp hpair with hpair | hpair
    · rw [List.eq_of_mem_replicate (List.of_mem_zip hpair).2] at hmark
      cases hmark
    · rcases List.mem_cons.mp hpair with rfl | hpair
      · exact ⟨hblock.strip_ne last (by simp), (of_decide_eq_true hmark).2⟩
      · exact ih pair hpair hmark

/-- The lines with one of the two marks can be told. -/
theorem visible_marks {lines : List SourceLine} :
    ∀ {mode : CMode} {marks : List Bool}, CodeLines chars mode lines →
      (∀ pair ∈ (lines.map SourceLine.text).zip marks, pair.2 = true →
        stripBlanks chars pair.1 ≠ [] ∧ (rstripBlanks chars pair.1).getLast? ≠ some ';') →
      Visible (.sym ';') (lineParts chars mode (lines.map SourceLine.content))
        (seen marks (lineSwallows chars mode (lines.map SourceLine.content))) (lines.map SourceLine.missing) := by
  induction lines with
  | nil => exact fun _ _ => trivial
  | cons line lines ih =>
    intro mode marks hcode hmarks
    cases marks with
    | nil => exact trivial
    | cons mark marks =>
      obtain ⟨-, htoken, hrest⟩ := hcode
      refine ⟨fun hseen => htoken ?_, ih hrest fun pair hpair => hmarks pair (List.mem_cons_of_mem _ hpair)⟩
      rcases hseen with hseen | hmissing
      · obtain ⟨hmark, hswallow⟩ := Bool.and_eq_true_iff.mp hseen
        obtain ⟨hne, hlast⟩ := hmarks (line.text, mark) List.mem_cons_self hmark
        rw [stripBlanks_text] at hne
        rw [rstripBlanks_text] at hlast
        exact .inr ⟨by simpa using hswallow, hne, hlast⟩
      · exact .inl hmissing

/-- **The text that comes out**, by its lines. -/
theorem repair_sourceText (breaks : LineBreaks chars) {lines : List SourceLine} {marks : List Bool}
    (hbreaks : ∀ line ∈ lines, ∀ c ∈ line.content, breaks.isBreak c = false)
    (hmarks : Marks chars (lines.map SourceLine.text) marks) :
    repairMissingExternSemicolons breaks (sourceText lines) =
      (List.zipWith (fun content mark => if mark then rstripBlanks chars content ++ [';'] else content)
        (lines.map SourceLine.content) marks).flatMap (· ++ ['\n']) := by
  have hnewline : breaks.isBreak '\n' = true := by
    rw [breaks.ascii '\n' (by decide)]
    decide
  have hlines : IsLines breaks (lines.map SourceLine.text) := by
    clear hmarks
    induction lines with
    | nil => exact .nil
    | cons line lines ih =>
      exact .cons (hbreaks line List.mem_cons_self) hnewline (ih fun l hl => hbreaks l (List.mem_cons_of_mem line hl))
  have hlength := hmarks.length_eq
  rw [repairMissingExternSemicolons, sourceText, splitLines_flatten hlines, hmarks.repairLines_eq]
  clear hmarks hlines hbreaks
  induction lines generalizing marks with
  | nil => rfl
  | cons line lines ih =>
    obtain ⟨mark, marks, rfl⟩ := List.exists_cons_of_ne_nil (List.ne_nil_of_length_eq_add_one hlength)
    have hmore := ih (Nat.succ.inj hlength)
    rw [List.map_cons, List.map_cons, List.zipWith_cons_cons, List.zipWith_cons_cons, List.flatten_cons, hmore,
      List.flatMap_cons]
    cases mark with
    | false => rfl
    | true =>
      rw [markedLine, if_pos rfl, if_pos rfl, withSemicolon, rstripBlanks_text]
      simp

/-- **What comes out has the intended tokens** exactly where the marks that are no part of a comment or directive
are the semicolons that are missing. -/
theorem tokens_repair_iff (breaks : LineBreaks chars) {lines : List SourceLine} {marks : List Bool}
    (hbreaks : ∀ line ∈ lines, ∀ c ∈ line.content, breaks.isBreak c = false) (hcode : CodeLines chars .fresh lines)
    (hmarks : Marks chars (lines.map SourceLine.text) marks) :
    cTokens chars (repairMissingExternSemicolons breaks (sourceText lines)) = intendedTokens chars lines ↔
      seen marks (lineSwallows chars .fresh (lines.map SourceLine.content)) = lines.map SourceLine.missing := by
  have hnewline : breaks.isBreak '\n' = true := by
    rw [breaks.ascii '\n' (by decide)]
    decide
  have hlength : marks.length = lines.length := by rw [hmarks.length_eq, List.length_map]
  have hcontents : ∀ line ∈ lines, '\n' ∉ line.content := by
    intro line hline hmem
    rw [hbreaks line hline '\n' hmem] at hnewline
    exact Bool.noConfusion hnewline
  rw [repair_sourceText breaks hbreaks hmarks, cTokens_lines, linesTokens_marked hcode hcontents hlength,
    intendedTokens]
  constructor
  · refine insertAfter_inj ?_ ?_ (visible_marks hcode hmarks.marked)
    · rw [seen, List.length_zipWith, lineSwallows_length, lineParts_length, List.length_map, hlength, Nat.min_self]
    · rw [lineParts_length, List.length_map, List.length_map]
  · intro h
    rw [h]

/-- The marks of a block and of the lines after it. -/
theorem seen_block {front : List SourceLine} {last : SourceLine} {rest : List SourceLine} (mark : Bool)
    (marks : List Bool) (mode : CMode) :
    seen (List.replicate front.length false ++ mark :: marks)
        (lineSwallows chars mode ((front ++ last :: rest).map SourceLine.content)) =
      List.replicate front.length false ++
        (mark && !decide (CMode.run chars (modeAfter chars mode front) last.content).2.Swallows) ::
          seen marks (lineSwallows chars (modeAfter chars mode (front ++ [last])) (rest.map SourceLine.content)) := by
  induction front generalizing mode with
  | nil => rfl
  | cons line front ih =>
    have hmore := ih (lineTokens chars mode line.content).2
    rw [List.cons_append, List.map_cons, lineSwallows, List.length_cons, List.replicate_succ, List.cons_append, seen,
      List.zipWith_cons_cons, ← seen, hmore]
    rfl

/-- **Marks that are the missing semicolons** lay the text out. -/
theorem laid_of_marks {texts : List (List Char)} {marks : List Bool} (h : Marks chars texts marks) :
    ∀ {mode : CMode} {lines : List SourceLine}, lines.map SourceLine.text = texts →
      seen marks (lineSwallows chars mode (lines.map SourceLine.content)) = lines.map SourceLine.missing →
      Laid chars mode lines := by
  induction h with
  | nil =>
    intro mode lines hlines _
    rw [List.map_eq_nil_iff.mp hlines]
    exact .nil
  | other hopens _ ih =>
    intro mode lines hlines hseen
    obtain ⟨line, rest, rfl, rfl, hrest⟩ := List.map_eq_cons_iff.mp hlines
    obtain ⟨hmissing, hmore⟩ := List.cons.inj hseen
    exact .other hopens hmissing.symm (ih hrest hmore)
  | @block front last rest marks hblock _ ih =>
    intro mode lines hlines hseen
    obtain ⟨sfront, more, rfl, rfl, hmore⟩ := List.map_eq_append_iff.mp hlines
    obtain ⟨slast, srest, rfl, rfl, rfl⟩ := List.map_eq_cons_iff.mp hmore
    rw [List.length_map, seen_block, List.map_append] at hseen
    obtain ⟨hfront, hmarks⟩ := List.append_inj hseen (by rw [List.length_replicate, List.length_map])
    obtain ⟨hlast, hrest⟩ := List.cons.inj hmarks
    have htexts : (sfront ++ [slast]).map SourceLine.text = sfront.map SourceLine.text ++ [slast.text] := by simp
    refine .block (by rw [htexts]; exact hblock) (fun line hline => ?_) ?_ (ih rfl hrest)
    · have hmem : line.missing ∈ sfront.map SourceLine.missing := List.mem_map_of_mem hline
      rw [← hfront] at hmem
      exact List.eq_of_mem_replicate hmem
    · rw [← hlast, htexts]
      simp

/-- **A text laid out so** has its marks where semicolons are missing. -/
theorem Laid.exists_marks {mode : CMode} {lines : List SourceLine} (h : Laid chars mode lines) :
    ∃ marks, Marks chars (lines.map SourceLine.text) marks ∧
      seen marks (lineSwallows chars mode (lines.map SourceLine.content)) = lines.map SourceLine.missing := by
  induction h with
  | nil => exact ⟨[], .nil, rfl⟩
  | @other mode line rest hopens hmissing _ ih =>
    obtain ⟨marks, hmarks, hseen⟩ := ih
    refine ⟨false :: marks, .other hopens hmarks, ?_⟩
    rw [List.map_cons, lineSwallows, seen, List.zipWith_cons_cons, ← seen, hseen, List.map_cons, hmissing]
    rfl
  | @block mode front last rest hblock hfront hlast _ ih =>
    obtain ⟨marks, hmarks, hseen⟩ := ih
    have htexts : (front ++ [last]).map SourceLine.text = front.map SourceLine.text ++ [last.text] := by simp
    rw [htexts] at hblock hlast
    refine ⟨_, by rw [List.map_append, List.map_cons]; exact .block hblock hmarks, ?_⟩
    have hnone : front.map SourceLine.missing = List.replicate front.length false := by
      refine List.eq_replicate_iff.mpr ⟨List.length_map _, fun missing hmissing => ?_⟩
      obtain ⟨line, hline, rfl⟩ := List.mem_map.mp hmissing
      exact hfront line hline
    have hmark : (decide (NeedsSemicolon chars (front.map SourceLine.text ++ [last.text]) last.text) &&
        !decide (CMode.run chars (modeAfter chars mode front) last.content).2.Swallows) = last.missing := by
      rw [Bool.eq_iff_iff, hlast]
      simp
    rw [List.length_map, seen_block, hseen, List.map_append, List.map_cons, hnone, hmark]

end Layout

/-- The line breaks of ASCII. -/
def LineBreaks.latin : LineBreaks .ascii where
  isBreak c := [10, 11, 12, 28, 29, 30].contains c.toNat
  ascii _ _ := rfl
  blank c h := by
    have hcases : c.toNat = 10 ∨ c.toNat = 11 ∨ c.toNat = 12 ∨ c.toNat = 28 ∨ c.toNat = 29 ∨ c.toNat = 30 := by
      simpa using h
    show (9 ≤ c.toNat && c.toNat ≤ 13 || 28 ≤ c.toNat && c.toNat ≤ 32) = true
    simp only [Bool.or_eq_true, Bool.and_eq_true, decide_eq_true_eq]
    omega

/-- A declaration on two lines without its semicolon, and another one. -/
def splitDeclaration : List SourceLine :=
  [⟨"extern void".toList, false⟩, ⟨"free(void *p)".toList, true⟩, ⟨"int y;".toList, false⟩]

end Assure
