import Assure.Pipeline.Blank

/-!
# What blanking blanks

A Rust text is read as a row of lexemes: words, single marks, literals and comments. `_blank` keeps the length
and the lines of every text. That it blanks the comments and literals and nothing else (`BlanksExactly`) is
another matter: its pattern begins at any character, also within a word, and takes the last letters of one for
the prefix of a literal that stands directly behind it (`KeepsApart`).

Editions of the language differ in whether a name may stand directly before a quotation mark and in whether a
string may have the prefix `c`. Both are read here.

The equivalence is for every row of lexemes that is read from its text. That the length and the
lines are kept is proved for every text whatsoever. A shebang line is no lexeme.
-/

namespace Assure

open Assure.Library

/-! ## Lengths and lines -/

/-- What is left behind a comment is an end of the text. -/
theorem closeNested_suffix (n : Nat) (cs : List Char) : closeNested n cs <:+ cs := by
  fun_induction closeNested n cs with
  | case1 => exact List.suffix_rfl
  | case2 => exact List.suffix_rfl
  | case3 => exact List.nil_suffix
  | case4 n c d cs _ ih | case5 n c d cs _ _ ih =>
    exact ih.trans ((List.suffix_cons d cs).trans (List.suffix_cons c _))
  | case6 n c d cs _ _ ih => exact ih.trans (List.suffix_cons c _)

/-- What is left behind a closing mark is an end of the text. -/
theorem afterFirst_suffix (close : List Char) : ∀ cs, afterFirst close cs <:+ cs
  | [] => List.suffix_rfl
  | c :: cs => by
    rw [afterFirst]
    split
    · exact List.drop_suffix _ _
    · exact (afterFirst_suffix close cs).trans (List.suffix_cons c cs)

/-- What is left behind a raw string is an end of the text. -/
theorem rawEnd?_suffix {cs rest : List Char} (h : rawEnd? cs = some rest) : rest <:+ cs := by
  unfold rawEnd? at h
  split at h
  · cases h
  · rename_i c body hbody
    split at h
    · obtain rfl := Option.some.inj h
      calc
        _ <:+ body := afterFirst_suffix _ _
        _ <:+ c :: body := List.suffix_cons c body
        _ = cs.dropWhile (· = '#') := hbody.symm
        _ <:+ cs := List.dropWhile_suffix _
    · cases h

/-- What is left behind a string is an end of the text. -/
theorem stringEnd?_suffix {rest : List Char} (cs : List Char) (h : stringEnd? cs = some rest) : rest <:+ cs := by
  fun_induction stringEnd? cs with
  | case1 => cases h
  | case2 => exact Option.some.inj h ▸ List.nil_suffix
  | case3 => cases h
  | case4 => exact Option.some.inj h ▸ List.suffix_cons _ _
  | case5 d cs _ ih => exact (ih h).trans ((List.suffix_cons d cs).trans (List.suffix_cons _ _))
  | case6 c d cs _ _ ih => exact (ih h).trans (List.suffix_cons c _)

/-- What is left behind a quotation mark is an end of the text. -/
theorem untilApostrophe_suffix {rest : List Char} (cs : List Char) (h : untilApostrophe cs = some rest) :
    rest <:+ cs := by
  fun_induction untilApostrophe cs with
  | case1 => cases h
  | case2 => exact Option.some.inj h ▸ List.suffix_cons _ _
  | case3 => cases h
  | case4 c cs _ _ ih => exact (ih h).trans (List.suffix_cons c cs)

/-- What is left behind a literal of one character is an end of the text. -/
theorem characterEnd?_suffix {rest : List Char} : ∀ {cs : List Char}, characterEnd? cs = some rest → rest <:+ cs
  | c :: d :: cs, h => by
    have htail : cs <:+ c :: d :: cs := (List.suffix_cons d cs).trans (List.suffix_cons c _)
    rw [characterEnd?] at h
    split at h
    · split at h
      · cases h
      · exact (untilApostrophe_suffix cs h).trans htail
    · split at h
      · exact Option.some.inj h ▸ htail
      · cases h

/-- A quoted literal begins with one of three characters, and what is left behind it is an end of
the text. -/
theorem quotedEnd?_suffix {c : Char} {cs rest : List Char} (h : quotedEnd? (c :: cs) = some rest) :
    (c = 'r' ∨ c = '"' ∨ c = '\'') ∧ rest <:+ cs := by
  rw [quotedEnd?] at h
  split at h
  · exact ⟨.inl ‹_›, rawEnd?_suffix h⟩
  · split at h
    · exact ⟨.inr (.inl ‹_›), stringEnd?_suffix cs h⟩
    · split at h
      · exact ⟨.inr (.inr ‹_›), characterEnd?_suffix h⟩
      · cases h

/-- **A match begins with one of five characters**, and the rest follows behind it. -/
theorem literalEnd?_suffix {c : Char} {cs rest : List Char} (h : literalEnd? (c :: cs) = some rest) :
    c ∈ ['/', 'b', 'r', '"', '\''] ∧ rest <:+ cs := by
  rw [literalEnd?] at h
  split at h
  · rename_i hslash
    refine ⟨by simp [hslash], ?_⟩
    split at h
    · exact Option.some.inj h ▸ (List.dropWhile_suffix _).trans (List.tail_suffix cs)
    · split at h
      · exact Option.some.inj h ▸ (closeNested_suffix 1 cs.tail).trans (List.tail_suffix cs)
      · cases h
  · split at h
    · rename_i hb
      refine ⟨by simp [hb], ?_⟩
      cases cs with
      | nil => cases h
      | cons d cs => exact (quotedEnd?_suffix h).2.trans (List.suffix_cons d cs)
    · obtain ⟨hc, hrest⟩ := quotedEnd?_suffix h
      exact ⟨by rcases hc with rfl | rfl | rfl <;> simp, hrest⟩

/-- What is blanked begins with a blank. -/
theorem changes_blanks {c : Char} (hc : c ∉ [' ', '\n']) (cs : List Char) : Changes c (blanks (c :: cs)) := by
  simp only [List.mem_cons, List.not_mem_nil, or_false, not_or] at hc
  intro out more h
  have hblank : (if c = '\n' then c else ' ') = c := (List.cons.inj h).1
  rw [if_neg hc.2] at hblank
  exact hc.1 hblank.symm

/-- Blanking a literal changes its first character, so it can be seen that it was blanked. -/
theorem changes_match (c : Char) (text rest : List Char) (h : literalEnd? (c :: text) = some rest) :
    Changes c (blanks ((c :: text).take ((c :: text).length - rest.length))) := by
  obtain ⟨hc, hrest⟩ := literalEnd?_suffix h
  have hlength := hrest.length_le
  have htake : (c :: text).take ((c :: text).length - rest.length) = c :: text.take (text.length - rest.length) := by
    rw [List.length_cons, Nat.succ_sub hlength, List.take_succ_cons]
  rw [htake]
  refine changes_blanks (fun hblank => ?_) _
  simp only [List.mem_cons, List.not_mem_nil, or_false] at hc hblank
  rcases hblank with rfl | rfl <;> simp at hc

/-- **The lines of a text.** -/
def lineMarks (text : List Char) : List Bool := text.map (· == '\n')

/-- Blanking keeps the line breaks where they are. -/
theorem lineMarks_blanks (text : List Char) : lineMarks (blanks text) = lineMarks text := by
  rw [lineMarks, blanks, List.map_map]
  apply List.map_congr_left
  intro c _
  by_cases hc : c = '\n' <;> simp [hc]

/-- The line breaks of two texts follow each other. -/
theorem lineMarks_append (front back : List Char) : lineMarks (front ++ back) = lineMarks front ++ lineMarks back :=
  List.map_append

/-- Blanking every literal keeps the line breaks, so lines of the blanked text are lines of the
source. -/
theorem lineMarks_replaceAll : ∀ (fuel : Nat) (text : List Char),
    lineMarks (replaceAll literalEnd? blanks fuel text) = lineMarks text
  | 0, _ => rfl
  | _ + 1, [] => rfl
  | fuel + 1, c :: text => by
    rw [replaceAll]
    cases hmatched : literalEnd? (c :: text) with
    | none => exact congrArg ((c == '\n') :: ·) (lineMarks_replaceAll fuel text)
    | some rest =>
      have hrest : rest <:+ c :: text := (literalEnd?_suffix hmatched).2.trans (List.suffix_cons c text)
      show lineMarks (_ ++ replaceAll literalEnd? blanks fuel rest) = _
      rw [lineMarks_append, lineMarks_blanks, lineMarks_replaceAll fuel rest, ← lineMarks_append]
      obtain ⟨front, hfront⟩ := hrest
      rw [← hfront, List.length_append, Nat.add_sub_cancel, List.take_left]

/-- **Every text keeps its length and its lines**, whatever is blanked. -/
theorem lineMarks_blank (source : List Char) : lineMarks (blank source) = lineMarks source :=
  lineMarks_replaceAll _ _

/-! ## Lexemes -/

/-- What a word is. A suffix stands directly behind a literal. -/
inductive WordKind
  | name
  | rawName
  | number
  | suffix
  | lifetime
  | rawLifetime
  deriving DecidableEq

/-- What stands before the letters of a word. -/
def WordKind.lead : WordKind → List Char
  | .name | .number | .suffix => []
  | .rawName => ['r', '#']
  | .lifetime => ['\'']
  | .rawLifetime => ['\'', 'r', '#']

/-- What a literal is of. -/
inductive LiteralKind
  | plain
  | byte
  | cString
  deriving DecidableEq

/-- The letter before a literal; the `r` of a raw string is part of its token. -/
def LiteralKind.lead : LiteralKind → List Char
  | .plain => []
  | .byte => ['b']
  | .cString => ['c']

/-- **A lexeme.** -/
inductive RustLexeme
  | word (kind : WordKind) (letters : List Char)
  | mark (c : Char)
  | literal (kind : LiteralKind) (token : RustToken)
  | comment (token : RustToken)
  deriving DecidableEq

namespace RustLexeme

/-- The text of a lexeme. -/
def text : RustLexeme → List Char
  | .word kind letters => kind.lead ++ letters
  | .mark c => [c]
  | .literal kind token => kind.lead ++ token.text
  | .comment token => token.text

/-- A lexeme that is to be blanked. -/
def isBlank : RustLexeme → Bool
  | .word _ _ | .mark _ => false
  | .literal _ _ | .comment _ => true

/-- The text of a row of lexemes. -/
def textOf (lexemes : List RustLexeme) : List Char := lexemes.flatMap text

/-- The text of the first lexeme comes first. -/
theorem textOf_cons (lexeme : RustLexeme) (lexemes : List RustLexeme) :
    textOf (lexeme :: lexemes) = lexeme.text ++ textOf lexemes := List.flatMap_cons

/-- **The text with its comments and literals blank.** -/
def blankedText (lexemes : List RustLexeme) : List Char :=
  lexemes.flatMap fun lexeme => if lexeme.isBlank = true then blanks lexeme.text else lexeme.text

/-- The tokens that are literals with or without a prefix: there are no characters among the C strings. -/
def IsLiteralOf (kind : LiteralKind) : RustToken → Prop
  | .str _ | .rawStr _ _ => True
  | .chr _ | .escaped _ _ => kind ≠ .cString
  | .code _ | .lifetime _ | .lineComment _ | .blockComment _ => False

/-- The tokens that are comments. -/
def IsComment : RustToken → Prop
  | .lineComment _ | .blockComment _ => True
  | .code _ | .lifetime _ | .str _ | .rawStr _ _ | .chr _ | .escaped _ _ => False

/-- Whether a lexeme is a suffix. -/
def isSuffix : RustLexeme → Bool
  | .word .suffix _ => true
  | _ => false

/-- Whether a lexeme is a literal. -/
def isLiteral : RustLexeme → Bool
  | .literal _ _ => true
  | .word _ _ | .mark _ | .comment _ => false

section

variable (chars : CharClass)

/-- **A lexeme is one by itself.** -/
def WellFormed : RustLexeme → Prop
  | .word kind letters => letters ≠ [] ∧ (∀ c ∈ letters, chars.word c = true) ∧
      letters.head?.any chars.digit = decide (kind = .number)
  | .mark c => chars.word c = false ∧ c ≠ '"' ∧ c ≠ '\''
  | .literal kind token => IsLiteralOf kind token ∧ token.WellFormed chars
  | .comment token => IsComment token ∧ token.WellFormed chars

/-- **A lexeme ends before the rest of the text.** A name that would be the prefix of a literal is none. -/
def Fits (rest : List Char) : RustLexeme → Prop
  | .word kind letters => rest.head?.any chars.word = false ∧
      (kind = .name → letters ∈ [['r'], ['b', 'r']] → startsRaw rest = false) ∧
      (kind = .name → letters = ['b'] → rest.head? ≠ some '"' ∧ rest.head? ≠ some '\'') ∧
      (kind ∈ [.lifetime, .rawLifetime] → rest.head? ≠ some '\'')
  | .mark c => c = '/' → rest.head? ≠ some '/' ∧ rest.head? ≠ some '*'
  | .literal _ _ => True
  | .comment token => token.Fits chars rest

/-- A lexeme is a suffix where letters stand directly behind a literal, and nowhere else. -/
def Follows (behindLiteral : Bool) (lexeme : RustLexeme) : Prop :=
  lexeme.isSuffix = (behindLiteral && lexeme.text.head?.any fun c => chars.word c && !chars.digit c)

/-- **The lexemes are those of their text.** -/
def IsLexed (behindLiteral : Bool) : List RustLexeme → Prop
  | [] => True
  | lexeme :: lexemes => lexeme.WellFormed chars ∧ lexeme.Fits chars (textOf lexemes) ∧
      lexeme.Follows chars behindLiteral ∧ IsLexed lexeme.isLiteral lexemes

end

/-! ## Letters before a literal -/

/-- The last letter of a word. -/
def lastLetter : RustLexeme → Option Char
  | .word _ letters => letters.getLast?
  | .mark _ | .literal _ _ | .comment _ => none

/-- A string or a character without a prefix. -/
def isQuoted : RustLexeme → Bool
  | .literal .plain (.str _) | .literal .plain (.chr _) | .literal .plain (.escaped _ _) => true
  | _ => false

/-- A C string. -/
def isCString : RustLexeme → Bool
  | .literal .cString _ => true
  | _ => false

/-- **Words are kept apart from literals**: an `r` from what it would make a raw string, a `b` from what it would
make a byte literal; and there is no C string. -/
def KeepsApart : List RustLexeme → Prop
  | [] => True
  | lexeme :: lexemes =>
    (lexeme.lastLetter = some 'r' → startsRaw (textOf lexemes) = false) ∧
    (lexeme.lastLetter = some 'b' → lexemes.head?.any isQuoted = false) ∧
    lexeme.isCString = false ∧ KeepsApart lexemes

section

variable (chars : CharClass)

instance (kind : LiteralKind) : ∀ token : RustToken, Decidable (IsLiteralOf kind token)
  | .str _ | .rawStr _ _ => .isTrue trivial
  | .chr _ | .escaped _ _ => inferInstanceAs (Decidable (kind ≠ .cString))
  | .code _ | .lifetime _ | .lineComment _ | .blockComment _ => .isFalse id

instance : ∀ token : RustToken, Decidable (IsComment token)
  | .lineComment _ | .blockComment _ => .isTrue trivial
  | .code _ | .lifetime _ | .str _ | .rawStr _ _ | .chr _ | .escaped _ _ => .isFalse id

instance : ∀ lexeme : RustLexeme, Decidable (lexeme.WellFormed chars)
  | .word _ letters =>
    -- the quantifier ranges over the list, not over all characters
    have := List.decidableBAll (fun c => chars.word c = true) letters
    instDecidableAnd
  | .mark c => inferInstanceAs (Decidable (chars.word c = false ∧ c ≠ '"' ∧ c ≠ '\''))
  | .literal kind token => inferInstanceAs (Decidable (IsLiteralOf kind token ∧ token.WellFormed chars))
  | .comment token => inferInstanceAs (Decidable (IsComment token ∧ token.WellFormed chars))

instance (rest : List Char) : ∀ lexeme : RustLexeme, Decidable (lexeme.Fits chars rest)
  | .word kind letters =>
    have : Decidable (letters ∈ [['r'], ['b', 'r']]) :=
      decidable_of_iff (letters = ['r'] ∨ letters = ['b', 'r']) (by simp)
    inferInstanceAs (Decidable (rest.head?.any chars.word = false ∧
      (kind = .name → letters ∈ [['r'], ['b', 'r']] → startsRaw rest = false) ∧
      (kind = .name → letters = ['b'] → rest.head? ≠ some '"' ∧ rest.head? ≠ some '\'') ∧
      (kind ∈ [.lifetime, .rawLifetime] → rest.head? ≠ some '\'')))
  | .mark c => inferInstanceAs (Decidable (c = '/' → rest.head? ≠ some '/' ∧ rest.head? ≠ some '*'))
  | .literal _ _ => .isTrue trivial
  | .comment token => inferInstanceAs (Decidable (token.Fits chars rest))

instance (behindLiteral : Bool) (lexeme : RustLexeme) : Decidable (lexeme.Follows chars behindLiteral) :=
  inferInstanceAs (Decidable (_ = _))

instance decidableIsLexed : ∀ (behindLiteral : Bool) (lexemes : List RustLexeme),
    Decidable (IsLexed chars behindLiteral lexemes)
  | _, [] => .isTrue trivial
  | behindLiteral, lexeme :: lexemes =>
    have := decidableIsLexed lexeme.isLiteral lexemes
    inferInstanceAs (Decidable (lexeme.WellFormed chars ∧ lexeme.Fits chars (textOf lexemes) ∧
      lexeme.Follows chars behindLiteral ∧ IsLexed chars lexeme.isLiteral lexemes))

end

/-! ## What the pattern matches in a lexeme -/

variable {chars : CharClass}

/-- **A literal or comment is matched to its end**, the `c` of a C string apart. -/
theorem literalEnd?_lexeme {lexeme : RustLexeme} {rest : List Char} (hblank : lexeme.isBlank = true)
    (hformed : lexeme.WellFormed chars) (hfits : lexeme.Fits chars rest) : ∃ c cs, lexeme.text = c :: cs ∧
      (lexeme.isCString = false ∧ literalEnd? (lexeme.text ++ rest) = some rest ∨
        lexeme.isCString = true ∧ literalEnd? (lexeme.text ++ rest) = none ∧ Changes c (blanks lexeme.text)) := by
  have htoken : ∀ {token : RustToken}, isBlanked (false, token) = true → token.WellFormed chars →
      token.Fits chars rest → literalEnd? (token.text ++ rest) = some rest := by
    intro token hblanked hformed hfits
    have hapart : token.Apart rest := by cases token <;> trivial
    have hcode : token = .code 'b' → quotedEnd? rest = none := by
      rintro rfl
      cases hblanked
    have := literalEnd?_token hformed hfits hapart hcode
    rw [if_pos hblanked] at this
    exact this.2
  cases lexeme with
  | word | mark => cases hblank
  | literal kind token =>
    obtain ⟨hliteral, hformed⟩ := hformed
    have hblanked : isBlanked (false, token) = true := by cases token <;> first | rfl | cases hliteral
    have hquoted : Assure.isLiteral token = true := by cases token <;> first | rfl | cases hliteral
    obtain ⟨c, cs, htext⟩ := List.exists_cons_of_ne_nil token.text_ne_nil
    cases kind with
    | plain =>
      refine ⟨c, cs, htext, .inl ⟨rfl, htoken hblanked hformed ?_⟩⟩
      cases token <;> trivial
    | byte => exact ⟨'b', token.text, rfl, .inl ⟨rfl, quotedEnd?_literal hquoted hformed rest⟩⟩
    | cString => exact ⟨'c', token.text, rfl, .inr ⟨rfl, rfl, changes_blanks (by simp) _⟩⟩
  | comment token =>
    obtain ⟨hcomment, hformed⟩ := hformed
    obtain ⟨c, cs, htext⟩ := List.exists_cons_of_ne_nil token.text_ne_nil
    refine ⟨c, cs, htext, .inl ⟨rfl, htoken ?_ hformed hfits⟩⟩
    cases token <;> first | rfl | cases hcomment

/-- Where no raw string can be read to its end, none starts. -/
theorem startsRaw_eq_false {cs : List Char} (h : rawEnd? cs = none) : startsRaw cs = false := by
  unfold rawEnd? at h
  unfold startsRaw
  cases hcs : cs.dropWhile (· = '#') with
  | nil => rfl
  | cons c body =>
    rw [hcs] at h
    dsimp only at h
    split at h
    · cases h
    · rename_i hquote
      simpa using hquote

/-- Letters do not start a raw string, even behind a hash. -/
theorem startsRaw_letters {letters rest : List Char} (hne : letters ≠ [])
    (hword : ∀ c ∈ letters, chars.word c = true) :
    startsRaw (letters ++ rest) = false ∧ startsRaw ('#' :: (letters ++ rest)) = false := by
  obtain ⟨c, letters, rfl⟩ := List.exists_cons_of_ne_nil hne
  have hc := hword c List.mem_cons_self
  have hhash : c ≠ '#' := word_ne hc (by decide) (by decide)
  have hquote : c ≠ '"' := word_ne hc (by decide) (by decide)
  exact ⟨by simp [startsRaw, hhash, hquote], by simp [startsRaw, hhash, hquote]⟩

/-- A lifetime begins no literal. -/
theorem quotedEnd?_lifetime {letters rest : List Char} {kind : WordKind} (hkind : kind ≠ .number)
    (hformed : (word kind letters).WellFormed chars) (hnext : rest.head?.any chars.word = false)
    (happ : rest.head? ≠ some '\'') : quotedEnd? ('\'' :: (letters ++ rest)) = none := by
  obtain ⟨hne, hword, hdigit⟩ := hformed
  rw [decide_eq_false hkind] at hdigit
  have hlifetime : (RustToken.lifetime letters).WellFormed chars := ⟨hne, hword, hdigit⟩
  exact quotedEnd?_eq_none rfl hlifetime ⟨happ, hnext⟩

/-- **Nothing is matched before the letters of a word.** -/
theorem literalEnd?_lead {kind : WordKind} {letters rest : List Char}
    (hformed : (word kind letters).WellFormed chars) (hfits : (word kind letters).Fits chars rest)
    {front back : List Char} (hlead : kind.lead = front ++ back) (hback : back ≠ []) :
    literalEnd? (back ++ (letters ++ rest)) = none := by
  obtain ⟨hnext, -, -, happ⟩ := hfits
  have hraw : rawEnd? ('#' :: (letters ++ rest)) = none :=
    rawEnd?_eq_none (startsRaw_letters hformed.1 hformed.2.1).2
  have hmem : back ∈ kind.lead.tails := (List.mem_tails _ _).mpr ⟨front, hlead.symm⟩
  cases kind with
  | name | number | suffix =>
    obtain rfl : back = [] := by simpa [WordKind.lead] using hmem
    exact absurd rfl hback
  | rawName =>
    obtain rfl | rfl | rfl : back = ['r', '#'] ∨ back = ['#'] ∨ back = [] := by
      simpa [WordKind.lead] using hmem
    · exact hraw
    · rfl
    · exact absurd rfl hback
  | lifetime =>
    obtain rfl | rfl : back = ['\''] ∨ back = [] := by simpa [WordKind.lead] using hmem
    · have hkind : WordKind.lifetime ≠ .number := WordKind.noConfusion
      show quotedEnd? ('\'' :: (letters ++ rest)) = none
      exact quotedEnd?_lifetime hkind hformed hnext (happ (by simp))
    · exact absurd rfl hback
  | rawLifetime =>
    obtain rfl | rfl | rfl | rfl : back = ['\'', 'r', '#'] ∨ back = ['r', '#'] ∨ back = ['#'] ∨ back = [] := by
      simpa [WordKind.lead] using hmem
    · rfl
    · exact hraw
    · rfl
    · exact absurd rfl hback

/-- A literal without a prefix begins a text where the first lexeme is a string or a character. -/
theorem quotedEnd?_textOf {behindLiteral : Bool} {lexemes : List RustLexeme}
    (hlexed : IsLexed chars behindLiteral lexemes) (hnext : (textOf lexemes).head?.any chars.word = false) :
    quotedEnd? (textOf lexemes) = none ↔ lexemes.head?.any isQuoted = false := by
  cases lexemes with
  | nil => exact iff_of_true rfl rfl
  | cons lexeme lexemes =>
    obtain ⟨hformed, hfits, -, -⟩ := hlexed
    rw [textOf_cons] at hnext ⊢
    -- a lexeme with a letter in front does not stand here
    have hletter : ∀ {c cs}, lexeme.text = c :: cs → chars.word c = true → False := by
      intro c cs htext hword
      rw [htext, List.cons_append, List.head?_cons, Option.any_some, hword] at hnext
      cases hnext
    have hascii : ∀ c : Char, c.toNat < 128 → (c.isAlphanum || c == '_') = true → chars.word c = true :=
      fun c hc halpha => (chars.word_ascii c hc).trans halpha
    cases lexeme with
    | word kind letters =>
      refine iff_of_true ?_ rfl
      obtain ⟨c, more, htext⟩ := List.exists_cons_of_ne_nil hformed.1
      have hword : chars.word c = true := hformed.2.1 c (htext ▸ List.mem_cons_self)
      cases kind with
      | name | number | suffix => exact (hletter htext hword).elim
      | rawName => exact (hletter rfl (hascii 'r' (by decide) rfl)).elim
      | lifetime => exact quotedEnd?_lifetime (by simp) hformed hfits.1 (hfits.2.2.2 (by simp))
      | rawLifetime => rfl
    | mark c =>
      refine iff_of_true ?_ rfl
      have hr : c ≠ 'r' := by
        rintro rfl
        exact hletter rfl (hascii 'r' (by decide) rfl)
      show quotedEnd? (c :: textOf lexemes) = none
      rw [quotedEnd?, if_neg hr, if_neg hformed.2.1, if_neg hformed.2.2]
    | literal kind token =>
      obtain ⟨hliteral, htoken⟩ := hformed
      cases kind with
      | byte => exact (hletter rfl (hascii 'b' (by decide) rfl)).elim
      | cString => exact (hletter rfl (hascii 'c' (by decide) rfl)).elim
      | plain =>
        have hmatched : Assure.isLiteral token = true →
            quotedEnd? ((literal .plain token).text ++ textOf lexemes) = some (textOf lexemes) :=
          fun h => quotedEnd?_literal h htoken _
        cases token with
        | rawStr => exact (hletter rfl (hascii 'r' (by decide) rfl)).elim
        | str | chr | escaped => exact iff_of_false (by rw [hmatched rfl]; simp) (by simp [isQuoted])
        | code | lifetime | lineComment | blockComment => cases hliteral
    | comment token =>
      refine iff_of_true ?_ rfl
      cases token with
      | lineComment | blockComment => rfl
      | code | lifetime | str | rawStr | chr | escaped => cases hformed.1

/-- **Nothing is matched in a word or a mark** if and only if the letters are kept apart from what follows. -/
theorem unmatched_iff {behindLiteral : Bool} {lexeme : RustLexeme} {lexemes : List RustLexeme}
    (hblank : lexeme.isBlank = false) (hformed : lexeme.WellFormed chars)
    (hfits : lexeme.Fits chars (textOf lexemes)) (hlexed : IsLexed chars behindLiteral lexemes) :
    (∀ front back, lexeme.text = front ++ back → back ≠ [] → literalEnd? (back ++ textOf lexemes) = none) ↔
      (lexeme.lastLetter = some 'r' → startsRaw (textOf lexemes) = false) ∧
      (lexeme.lastLetter = some 'b' → lexemes.head?.any isQuoted = false) := by
  cases lexeme with
  | literal | comment => cases hblank
  | mark c =>
    refine iff_of_true ?_ ⟨fun h => (Option.some_ne_none _ h.symm).elim, fun h => (Option.some_ne_none _ h.symm).elim⟩
    obtain ⟨hword, hquote, happ⟩ := hformed
    intro front back htext hback
    obtain rfl : back = [c] := by
      have hmem : back ∈ [c].tails := (List.mem_tails _ _).mpr ⟨front, htext.symm⟩
      simpa [hback] using hmem
    have hletter : ∀ {d : Char}, chars.word d = true → c ≠ d := by
      rintro d hd rfl
      rw [hword] at hd
      cases hd
    have hr : c ≠ 'r' := hletter (chars.word_ascii 'r' (by decide))
    have hb : c ≠ 'b' := hletter (chars.word_ascii 'b' (by decide))
    show literalEnd? (c :: textOf lexemes) = none
    by_cases hslash : c = '/'
    · obtain ⟨hline, hblock⟩ := hfits hslash
      rw [literalEnd?, if_pos hslash, if_neg hline, if_neg hblock]
    · rw [literalEnd?_quoted hslash hb, quotedEnd?, if_neg hr, if_neg hquote, if_neg happ]
  | word kind letters =>
    have hnext := hfits.1
    obtain ⟨hne, hword, -⟩ := id hformed
    have hlast : ∀ {c}, letters.getLast? = some c → ∃ front, letters = front ++ [c] := fun h =>
      ⟨_, (List.dropLast_append_getLast? _ h).symm⟩
    constructor
    · -- the last letter alone would be matched
      intro hnone
      constructor
      · intro hr
        obtain ⟨front, rfl⟩ := hlast hr
        have hraw := hnone (kind.lead ++ front) ['r'] (List.append_assoc ..).symm (List.cons_ne_nil _ _)
        have hraw : rawEnd? (textOf lexemes) = none := hraw
        exact startsRaw_eq_false hraw
      · intro hb
        obtain ⟨front, rfl⟩ := hlast hb
        have hbyte := hnone (kind.lead ++ front) ['b'] (List.append_assoc ..).symm (List.cons_ne_nil _ _)
        exact (quotedEnd?_textOf hlexed hnext).mp hbyte
    · rintro ⟨hraw, hbyte⟩ front back htext hback
      rcases List.append_eq_append_iff.mp htext with ⟨middle, -, hletters⟩ | ⟨middle, hlead, rfl⟩
      · exact literalEnd?_letters hword hraw (fun hb => (quotedEnd?_textOf hlexed hnext).mpr (hbyte hb)) hletters hback
      · by_cases hmiddle : middle = []
        · subst hmiddle
          have hwhole : letters = [] ++ letters := rfl
          exact literalEnd?_letters hword hraw (fun hb => (quotedEnd?_textOf hlexed hnext).mpr (hbyte hb)) hwhole hback
        · rw [List.append_assoc]
          exact literalEnd?_lead hformed hfits hlead hmiddle

/-! ## Blanked texts -/

/-- On a row of lexemes the search finds the literals and nothing else, which is what the blanked
text is read off. -/
theorem settled_lexemes : ∀ {behindLiteral : Bool} {lexemes : List RustLexeme},
    IsLexed chars behindLiteral lexemes → Settled literalEnd? blanks text isBlank lexemes
  | _, [], _ => trivial
  | _, lexeme :: lexemes, ⟨hformed, hfits, _, hlexed⟩ => by
    refine ⟨fun hblank => ?_, settled_lexemes hlexed⟩
    obtain ⟨c, cs, htext, h⟩ := literalEnd?_lexeme hblank hformed hfits
    exact ⟨c, cs, htext, h.imp And.right And.right⟩

/-- **The comments and literals are what is matched** if and only if words are kept apart from literals. -/
theorem separates_iff : ∀ {behindLiteral : Bool} {lexemes : List RustLexeme},
    IsLexed chars behindLiteral lexemes → (Separates literalEnd? text isBlank lexemes ↔ KeepsApart lexemes)
  | _, [], _ => Iff.rfl
  | _, lexeme :: lexemes, ⟨hformed, hfits, _, hlexed⟩ => by
    rw [Separates, KeepsApart, separates_iff hlexed, ← and_assoc, ← and_assoc, and_congr_left_iff]
    intro _
    by_cases hblank : lexeme.isBlank = true
    · obtain ⟨c, cs, htext, h⟩ := literalEnd?_lexeme hblank hformed hfits
      have hlast : lexeme.lastLetter = none := by cases lexeme <;> first | rfl | cases hblank
      rw [if_pos hblank, hlast]
      rcases h with ⟨hc, hmatched⟩ | ⟨hc, hnone, -⟩
      · exact iff_of_true ⟨htext ▸ List.cons_ne_nil c cs, hmatched⟩ ⟨⟨by simp, by simp⟩, hc⟩
      · refine iff_of_false (fun hmatched => ?_) fun h => by simp [hc] at h
        exact absurd (hnone.symm.trans hmatched.2) (by simp)
    · have hc : lexeme.isCString = false := by cases lexeme <;> first | rfl | exact absurd rfl hblank
      rw [if_neg hblank, and_iff_left hc]
      exact unmatched_iff (Bool.eq_false_iff.mpr hblank) hformed hfits hlexed

end RustLexeme

/-- **A lexically valid text.** -/
structure LexedText (chars : CharClass) where
  lexemes : List RustLexeme
  lexed : RustLexeme.IsLexed chars false lexemes

/-- The text itself. -/
def LexedText.text {chars : CharClass} (source : LexedText chars) : List Char := RustLexeme.textOf source.lexemes

/-- **The comments and literals of a text, and nothing else, are blank in another**, which has its length and its
lines. -/
structure BlanksExactly {chars : CharClass} (source : LexedText chars) (out : List Char) : Prop where
  text : out = RustLexeme.blankedText source.lexemes
  length : out.length = source.text.length
  lines : ∀ i : Nat, out[i]? = some '\n' ↔ source.text[i]? = some '\n'

/-- The lines of two texts are the same where their marks are. -/
theorem getElem?_of_lineMarks {out text : List Char} (h : lineMarks out = lineMarks text) (i : Nat) :
    out[i]? = some '\n' ↔ text[i]? = some '\n' := by
  have hat : ∀ cs : List Char, cs[i]? = some '\n' ↔ (lineMarks cs)[i]? = some true := by
    intro cs
    rw [lineMarks, List.getElem?_map, Option.map_eq_some_iff]
    constructor
    · exact fun hi => ⟨'\n', hi, rfl⟩
    · rintro ⟨c, hi, hc⟩
      rw [hi, eq_of_beq hc]
  rw [hat, hat, h]

/-- **`_blank` blanks exactly the comments and literals** if and only if no word that ends in `r` or `b` stands
where that letter would be the prefix of a literal, and there is no C string. -/
theorem blank_exactly_iff {chars : CharClass} (source : LexedText chars) :
    BlanksExactly source (blank source.text) ↔ RustLexeme.KeepsApart source.lexemes := by
  rw [← RustLexeme.separates_iff source.lexed,
    ← replaceAll_flatMap_iff changes_match (RustLexeme.settled_lexemes source.lexed) le_rfl]
  constructor
  · exact BlanksExactly.text
  · intro htext
    have hlines := lineMarks_blank source.text
    have hlength := congrArg List.length hlines
    rw [lineMarks, lineMarks, List.length_map, List.length_map] at hlength
    exact ⟨htext, hlength, getElem?_of_lineMarks hlines⟩

/-- `'r"x"`: a lifetime and a string, as they may stand in the argument of a macro. -/
def lifetimeThenString : LexedText .ascii where
  lexemes := [.word .lifetime ['r'], .literal .plain (.str [.plain 'x'])]
  lexed := by decide

/-- The `r` of the lifetime is blanked with the string. -/
theorem lifetimeThenString_not : ¬ BlanksExactly lifetimeThenString (blank lifetimeThenString.text) := by
  intro h
  exact absurd h.text (by decide)

end Assure
