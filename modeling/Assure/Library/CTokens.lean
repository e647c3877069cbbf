import Assure.Library.Blanks

/-!
# The tokens of a C text, line by line

Words, literals and symbols, without blanks, comments and directives. The reader goes from character to
character and knows where it is, so what a line gives depends on the lines before it only through the mode at its
beginning. A `;` at the end of a line is a token unless the line ends in a comment or a directive
(`lineTokens_semicolon`).
-/

namespace Assure.Library

/-- A token. -/
inductive CLexeme
  | word (text : List Char)
  | literal (text : List Char)
  | sym (c : Char)
  deriving DecidableEq

/-- **Where the reader is**: at the beginning of a line, in code, in or after a word or a slash, in a literal with
its quote and perhaps behind a backslash, in a comment, or in a directive. -/
inductive CMode
  | fresh
  | idle
  | word (text : List Char)
  | slash
  | literal (quote : Char) (escaped : Bool) (text : List Char)
  | line
  | block
  | star
  | directive
  deriving DecidableEq

namespace CMode

/-- What is left at the end. -/
def pending : CMode → List CLexeme
  | .word text => [.word text]
  | .slash => [.sym '/']
  | .literal _ _ text => [.literal text]
  | _ => []

variable (chars : CharClass)

/-- A character between tokens. -/
def start (fresh : Bool) (c : Char) : List CLexeme × CMode :=
  if c = '\n' then ([], .fresh)
  else if chars.space c then ([], if fresh then .fresh else .idle)
  else if chars.word c then ([], .word [c])
  else if c = '"' ∨ c = '\'' then ([], .literal c false [c])
  else if c = '/' then ([], .slash)
  else if c = '#' ∧ fresh then ([], .directive)
  else ([.sym c], .idle)

/-- One character. -/
def next : CMode → Char → List CLexeme × CMode
  | .fresh, c => start chars true c
  | .idle, c => start chars false c
  | .word text, c =>
    if chars.word c then ([], .word (text ++ [c]))
    else (.word text :: (start chars false c).1, (start chars false c).2)
  | .slash, c =>
    if c = '/' then ([], .line)
    else if c = '*' then ([], .block)
    else (.sym '/' :: (start chars false c).1, (start chars false c).2)
  | .literal quote escaped text, c =>
    if c = '\n' then ([.literal text], .fresh)
    else if escaped then ([], .literal quote false (text ++ [c]))
    else if c = '\\' then ([], .literal quote true (text ++ [c]))
    else if c = quote then ([.literal (text ++ [c])], .idle)
    else ([], .literal quote false (text ++ [c]))
  | .line, c => ([], if c = '\n' then .fresh else .line)
  | .block, c => ([], if c = '*' then .star else .block)
  | .star, c => ([], if c = '/' then .idle else if c = '*' then .star else .block)
  | .directive, c => ([], if c = '\n' then .fresh else .directive)

/-- The tokens of a text from a mode on, and the mode after it. -/
def run : CMode → List Char → List CLexeme × CMode
  | mode, [] => ([], mode)
  | mode, c :: rest => ((mode.next chars c).1 ++ (run (mode.next chars c).2 rest).1, (run (mode.next chars c).2 rest).2)

/-- A `;` is no token here. -/
def Swallows : CMode → Prop
  | .line | .block | .star | .directive => True
  | _ => False

instance : DecidablePred Swallows := fun mode => by
  cases mode <;> unfold Swallows <;> infer_instance

/-- In a literal. -/
def InLiteral : CMode → Prop
  | .literal _ _ _ => True
  | _ => False

instance : DecidablePred InLiteral := fun mode => by
  cases mode <;> unfold InLiteral <;> infer_instance

end CMode

/-- **The tokens of a text.** -/
def cTokens (chars : CharClass) (text : List Char) : List CLexeme :=
  (CMode.run chars .fresh text).1 ++ (CMode.run chars .fresh text).2.pending

section Run

variable {chars : CharClass}

/-- Reading a text and then another one is reading both, with the mode handed on between them. -/
theorem run_append (mode : CMode) (front back : List Char) :
    CMode.run chars mode (front ++ back) =
      ((CMode.run chars mode front).1 ++ (CMode.run chars (CMode.run chars mode front).2 back).1,
        (CMode.run chars (CMode.run chars mode front).2 back).2) := by
  induction front generalizing mode with
  | nil => rfl
  | cons c front ih => simp only [List.cons_append, CMode.run, ih, List.append_assoc]

/-- The tokens that a mode and an end of line give. -/
def CMode.atNewline : CMode → List CLexeme × CMode
  | .block | .star => ([], .block)
  | mode => (mode.pending, .fresh)

/-- At a line break the mode decides alone what happens. -/
theorem next_newline (mode : CMode) : mode.next chars '\n' = mode.atNewline := by
  have hword : chars.word '\n' = false := by rw [chars.word_ascii '\n' (by decide)]; decide
  cases mode with
  | word text => rw [CMode.next, if_neg (by rw [hword]; decide)]; rfl
  | _ => rfl

/-- **The tokens of a line** with its end, from a mode on, and the mode after it. -/
def lineTokens (chars : CharClass) (mode : CMode) (content : List Char) : List CLexeme × CMode :=
  CMode.run chars mode (content ++ ['\n'])

/-- The tokens of a line are those of its text and what the line break behind it completes. -/
theorem lineTokens_eq (mode : CMode) (content : List Char) :
    lineTokens chars mode content =
      ((CMode.run chars mode content).1 ++ (CMode.run chars mode content).2.atNewline.1,
        (CMode.run chars mode content).2.atNewline.2) := by
  rw [lineTokens, run_append, CMode.run, CMode.run, next_newline, List.append_nil]

/-- Blanks at the end of a line say nothing. -/
theorem lineTokens_blanks {mode : CMode} {content blanks : List Char}
    (hblanks : ∀ c ∈ blanks, chars.space c = true ∧ c ≠ '\n')
    (hliteral : ¬ (CMode.run chars mode content).2.InLiteral) :
    lineTokens chars mode (content ++ blanks) = lineTokens chars mode content ∧
      ((CMode.run chars mode (content ++ blanks)).2.Swallows ↔ (CMode.run chars mode content).2.Swallows) ∧
      ¬ (CMode.run chars mode (content ++ blanks)).2.InLiteral := by
  induction blanks using List.reverseRecOn with
  | nil => rw [List.append_nil]; exact ⟨rfl, Iff.rfl, hliteral⟩
  | append_singleton blanks c ih =>
    obtain ⟨htokens, hswallows, hliteral'⟩ := ih fun d hd => hblanks d (List.mem_append_left _ hd)
    obtain ⟨hspace, hnewline⟩ := hblanks c (by simp)
    have hword : chars.word c = false := by
      by_contra h
      rw [chars.disjoint c (Bool.not_eq_false _ ▸ h)] at hspace
      exact Bool.noConfusion hspace
    have hstart : ∀ fresh, CMode.start chars fresh c = ([], if fresh then .fresh else .idle) := by
      intro fresh
      rw [CMode.start, if_neg hnewline, if_pos hspace]
    have hslash : c ≠ '/' ∧ c ≠ '*' := by
      refine ⟨?_, ?_⟩ <;> rintro rfl
      · rw [chars.space_ascii '/' (by decide)] at hspace
        exact absurd hspace (by decide)
      · rw [chars.space_ascii '*' (by decide)] at hspace
        exact absurd hspace (by decide)
    rw [← htokens, ← hswallows, lineTokens_eq, lineTokens_eq, ← List.append_assoc, run_append _ (content ++ blanks)]
    generalize CMode.run chars mode (content ++ blanks) = result at hliteral'
    obtain ⟨tokens, mode'⟩ := result
    cases mode' with
    | literal quote escaped text => exact absurd trivial hliteral'
    | _ =>
      simp [CMode.run, CMode.next, CMode.atNewline, CMode.pending, CMode.Swallows, CMode.InLiteral, hstart, hword,
        hslash,
      hnewline]

/-- **A `;` at the end of a line** is a token, unless the line ends in a comment or a directive. -/
theorem lineTokens_semicolon {mode : CMode} {content : List Char}
    (hliteral : ¬ (CMode.run chars mode content).2.InLiteral) :
    lineTokens chars mode (content ++ [';']) =
      ((lineTokens chars mode content).1 ++
          (if (CMode.run chars mode content).2.Swallows then [] else [.sym ';']),
        (lineTokens chars mode content).2) := by
  have hword : chars.word ';' = false := by rw [chars.word_ascii ';' (by decide)]; decide
  have hspace : chars.space ';' = false := by rw [chars.space_ascii ';' (by decide)]; decide
  have hstart : ∀ fresh, CMode.start chars fresh ';' = ([.sym ';'], .idle) := by
    intro fresh
    simp [CMode.start, hword, hspace]
  rw [lineTokens_eq, lineTokens_eq, run_append]
  generalize CMode.run chars mode content = result at hliteral
  obtain ⟨tokens, mode'⟩ := result
  cases mode' with
  | literal quote escaped text => exact absurd trivial hliteral
  | _ => simp [CMode.run, CMode.next, CMode.atNewline, CMode.pending, CMode.Swallows, hstart, hword]

/-- After an end of line, a line begins or a comment goes on. -/
theorem lineTokens_mode (mode : CMode) (content : List Char) :
    (lineTokens chars mode content).2 = .fresh ∨ (lineTokens chars mode content).2 = .block := by
  rw [lineTokens_eq]
  generalize CMode.run chars mode content = result
  obtain ⟨tokens, mode'⟩ := result
  cases mode' <;> simp [CMode.atNewline]

/-- The tokens of lines, each with its end. -/
def linesTokens (chars : CharClass) : CMode → List (List Char) → List CLexeme
  | _, [] => []
  | mode, content :: rest =>
    (lineTokens chars mode content).1 ++ linesTokens chars (lineTokens chars mode content).2 rest

/-- Reading the lines one after the other gives the tokens of the whole text, if a line begins fresh
or inside a block comment. -/
theorem run_lines (contents : List (List Char)) {mode : CMode} (hmode : mode = .fresh ∨ mode = .block) :
    (CMode.run chars mode (contents.flatMap (· ++ ['\n']))).1 ++
        (CMode.run chars mode (contents.flatMap (· ++ ['\n']))).2.pending = linesTokens chars mode contents := by
  induction contents generalizing mode with
  | nil => rcases hmode with rfl | rfl <;> rfl
  | cons content contents ih =>
    rw [List.flatMap_cons, run_append, linesTokens, ← ih (lineTokens_mode mode content), List.append_assoc]
    rfl

/-- **The tokens of a text by its lines.** -/
theorem cTokens_lines (contents : List (List Char)) :
    cTokens chars (contents.flatMap (· ++ ['\n'])) = linesTokens chars .fresh contents :=
  run_lines contents (.inl rfl)

/-- The tokens of each line. -/
def lineParts (chars : CharClass) : CMode → List (List Char) → List (List CLexeme)
  | _, [] => []
  | mode, content :: rest =>
    (lineTokens chars mode content).1 :: lineParts chars (lineTokens chars mode content).2 rest

/-- Whether each line ends in a comment or a directive. -/
def lineSwallows (chars : CharClass) : CMode → List (List Char) → List Bool
  | _, [] => []
  | mode, content :: rest =>
    decide (CMode.run chars mode content).2.Swallows :: lineSwallows chars (lineTokens chars mode content).2 rest

end Run

/-! ## Separators after some parts -/

section Insert

variable {α : Type*} {sep : α}

/-- Parts, with a separator after those that are marked. -/
def insertAfter (sep : α) : List (List α) → List Bool → List α
  | part :: parts, mark :: marks => part ++ ((if mark then [sep] else []) ++ insertAfter sep parts marks)
  | _, _ => []

/-- A part with one of two marks has something that is no separator. -/
def Visible (sep : α) : List (List α) → List Bool → List Bool → Prop
  | part :: parts, mark :: marks, mark' :: marks' =>
    (mark = true ∨ mark' = true → ∃ a ∈ part, a ≠ sep) ∧ Visible sep parts marks marks'
  | _, _, _ => True

/-- Which of two rows of marks is called the first does not matter. -/
theorem Visible.symm : ∀ {parts : List (List α)} {marks marks' : List Bool}, Visible sep parts marks marks' →
    Visible sep parts marks' marks
  | _ :: _, _ :: _, _ :: _, h => ⟨fun hmark => h.1 hmark.symm, h.2.symm⟩
  | [], _, _, _ => trivial
  | _ :: _, [], [], _ => trivial
  | _ :: _, [], _ :: _, _ => trivial
  | _ :: _, _ :: _, [], _ => trivial

/-- A separator too many is never caught up with. -/
theorem insertAfter_ahead {parts : List (List α)} :
    ∀ {marks marks' : List Bool} {k : Nat}, marks.length = parts.length → marks'.length = parts.length →
      Visible sep parts marks marks' → 0 < k →
      List.replicate k sep ++ insertAfter sep parts marks ≠ insertAfter sep parts marks' := by
  induction parts with
  | nil =>
    intro marks marks' k _ _ _ hk heq
    obtain ⟨n, rfl⟩ := Nat.exists_eq_succ_of_ne_zero hk.ne'
    rw [List.replicate_succ] at heq
    cases heq
  | cons part parts ih =>
    intro marks marks' k hlength hlength' hvisible hk heq
    obtain ⟨mark, marks, rfl⟩ := List.exists_cons_of_ne_nil (List.ne_nil_of_length_eq_add_one hlength)
    obtain ⟨mark', marks', rfl⟩ := List.exists_cons_of_ne_nil (List.ne_nil_of_length_eq_add_one hlength')
    obtain ⟨hpart, hparts⟩ := hvisible
    rw [insertAfter, insertAfter] at heq
    by_cases hall : ∀ a ∈ part, a = sep
    · -- the part consists of separators, so neither list has a mark there
      have hnone : mark = false ∧ mark' = false := by
        refine ⟨?_, ?_⟩ <;> by_contra hmark
        · obtain ⟨a, ha, hne⟩ := hpart (.inl (Bool.not_eq_false _ ▸ hmark))
          exact hne (hall a ha)
        · obtain ⟨a, ha, hne⟩ := hpart (.inr (Bool.not_eq_false _ ▸ hmark))
          exact hne (hall a ha)
      obtain ⟨rfl, rfl⟩ := hnone
      rw [List.eq_replicate_of_mem hall, ← List.append_assoc, List.replicate_append_replicate, Nat.add_comm,
        ← List.replicate_append_replicate, List.append_assoc] at heq
      exact ih (Nat.succ.inj hlength) (Nat.succ.inj hlength') hparts hk (List.append_cancel_left heq)
    · push Not at hall
      obtain ⟨a, ha, hne⟩ := hall
      obtain ⟨n, x, rest, hx, rfl⟩ : ∃ n x rest, x ≠ sep ∧ part = List.replicate n sep ++ x :: rest := by
        clear hpart hlength hlength' heq
        induction part with
        | nil => cases ha
        | cons b part ih =>
          by_cases hb : b = sep
          · have ha' : a ∈ part := by
              rcases List.mem_cons.mp ha with rfl | ha
              · exact absurd hb hne
              · exact ha
            obtain ⟨n, x, rest, hx, rfl⟩ := ih ha'
            exact ⟨n + 1, x, rest, hx, by rw [hb, List.replicate_succ, List.cons_append]⟩
          · exact ⟨0, b, part, hb, rfl⟩
      simp only [List.append_assoc, List.cons_append] at heq
      rw [← List.append_assoc, List.replicate_append_replicate, Nat.add_comm, ← List.replicate_append_replicate,
        List.append_assoc] at heq
      have hhead := List.append_cancel_left heq
      obtain ⟨m, rfl⟩ := Nat.exists_eq_succ_of_ne_zero hk.ne'
      rw [List.replicate_succ, List.cons_append] at hhead
      exact hx (List.cons.inj hhead).1.symm

/-- **Where the separators are can be read off the whole**, if they stand after parts that are no separators. -/
theorem insertAfter_inj {parts : List (List α)} :
    ∀ {marks marks' : List Bool}, marks.length = parts.length → marks'.length = parts.length →
      Visible sep parts marks marks' → insertAfter sep parts marks = insertAfter sep parts marks' →
      marks = marks' := by
  induction parts with
  | nil =>
    intro marks marks' hlength hlength' _ _
    rw [List.length_eq_zero_iff.mp hlength, List.length_eq_zero_iff.mp hlength']
  | cons part parts ih =>
    intro marks marks' hlength hlength' hvisible heq
    obtain ⟨mark, marks, rfl⟩ := List.exists_cons_of_ne_nil (List.ne_nil_of_length_eq_add_one hlength)
    obtain ⟨mark', marks', rfl⟩ := List.exists_cons_of_ne_nil (List.ne_nil_of_length_eq_add_one hlength')
    have hmore := Nat.succ.inj hlength
    have hmore' := Nat.succ.inj hlength'
    have hrest := List.append_cancel_left heq
    cases mark with
    | false =>
      cases mark' with
      | false => rw [ih hmore hmore' hvisible.2 hrest]
      | true => exact absurd hrest.symm (@insertAfter_ahead _ _ _ _ _ 1 hmore' hmore hvisible.2.symm Nat.one_pos)
    | true =>
      cases mark' with
      | false => exact absurd hrest (@insertAfter_ahead _ _ _ _ _ 1 hmore hmore' hvisible.2 Nat.one_pos)
      | true => rw [ih hmore hmore' hvisible.2 (List.append_cancel_left hrest)]

end Insert

end Assure.Library
