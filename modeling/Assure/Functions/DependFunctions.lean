import Mathlib.Data.List.TakeWhile
import Assure.Library.CText
import Assure.Library.Taking

/-!
# The functions a body depends on

`extractDependFunctions` looks for the names of the other functions in a body. Comments and literals are
stripped by four replacements first, and a name counts where a bracket, or a blank and a bracket, follows it,
where an ampersand stands before it, or where the characters around it look like the use of a value.

The four replacements know nothing of each other, so a mark of a comment in a literal can be taken for one.
Where none of them goes wrong the comments and what the literals hold are gone
(`stripCommentsAndStringLiterals_textOf`); tokens that cannot be misread are one case
(`StripsRight.of_stripSafe`).

What a body depends on is said on the tokens (`CallsOrUses`): a name is called, whatever white space stands before
the bracket, or it stands where the value of a function does. What the loop looks at is said as a relation of its
own on the stripped text (`Spotted`), and the loop's test is that relation (`seesDependency_iff`). On a body that
is safe to scan the functions found are those the body depends on exactly if each of them has one place that the
scan sees (`extractDependFunctions_iff`). Nothing is said about bodies on which a replacement goes wrong: the
names that are left there depend on what it swallowed.
-/

namespace Assure

open Assure.Library

/-! ## Stripping -/

/-- What follows the first end of a block comment. -/
def afterClose : List Char → Option (List Char)
  | [] => none
  | c :: cs => if c = '*' ∧ cs.head? = some '/' then some cs.tail else afterClose cs

/-- `/\*.*?\*/` -/
def blockComment? : List Char → Option (List Char)
  | [] => none
  | c :: cs => if c = '/' ∧ cs.head? = some '*' then afterClose cs.tail else none

/-- `//[^\n]*` -/
def lineComment? : List Char → Option (List Char)
  | [] => none
  | c :: cs => if c = '/' ∧ cs.head? = some '/' then some (cs.tail.dropWhile (· ≠ '\n')) else none

/-- `(?:\\.|[^"\\\n])*"`, for either quote. -/
def closeQuote (quote : Char) : List Char → Option (List Char)
  | [] => none
  | [c] => if c = quote then some [] else none
  | c :: d :: cs =>
    if c = quote then some (d :: cs)
    else if c = '\\' then if d = '\n' then none else closeQuote quote cs
    else if c = '\n' then none
    else closeQuote quote (d :: cs)

/-- A literal. -/
def literal? (quote : Char) : List Char → Option (List Char)
  | [] => none
  | c :: cs => if c = quote then closeQuote quote cs else none

/-- **`_stripCommentsAndStringLiterals`** -/
def stripCommentsAndStringLiterals (code : List Char) : List Char :=
  let code := replaceAll blockComment? (fun _ => []) code.length code
  let code := replaceAll lineComment? (fun _ => []) code.length code
  let code := replaceAll (literal? '"') (fun _ => ['"', '"']) code.length code
  replaceAll (literal? '\'') (fun _ => ['\'', '\'']) code.length code

namespace CToken

/-- A block comment. -/
def isBlock : CToken → Bool
  | .blockComment _ => true
  | _ => false

/-- A line comment. -/
def isLine : CToken → Bool
  | .lineComment _ => true
  | _ => false

/-- A literal with that quote. -/
def isLiteral (quote : Char) : CToken → Bool
  | .literal q _ => q = quote
  | _ => false

/-- What the stripping leaves of a token. -/
def scanned : CToken → List Char
  | .code c => [c]
  | .literal quote _ => [quote, quote]
  | .lineComment _ | .blockComment _ => []

/-- A comment. -/
def isComment (token : CToken) : Bool := isBlock token || isLine token

/-- **A token that no replacement can misread**: no mark of a comment stands in a literal and no beginning of a
block comment in a line comment, no double quote in a character, and no literal goes on on the next line. -/
def StripSafe : CToken → Prop
  | .code _ | .blockComment _ => True
  | .literal quote pieces =>
    ¬ ['/', '*'] <:+: (CToken.literal quote pieces).text ∧ ¬ ['/', '/'] <:+: (CToken.literal quote pieces).text ∧
      (quote = '\'' → '"' ∉ (CToken.literal quote pieces).text) ∧ .escape '\n' ∉ pieces
  | .lineComment body => ¬ ['/', '*'] <:+: '/' :: body

end CToken

open CToken

/-- Where two marks do not stand together, not even with what follows, nothing starts with them. -/
theorem no_pair {c d : Char} {text rest : List Char} (hpair : ¬ [c, d] <:+: text)
    (hlast : text.getLast? = some c → rest.head? ≠ some d) {front back : List Char} (htext : text = front ++ back)
    (hne : back ≠ []) : (back ++ rest).head? = some c → (back ++ rest).tail.head? ≠ some d := by
  intro hc hd
  cases back with
  | nil => exact hne rfl
  | cons a back =>
    obtain rfl : a = c := Option.some.inj hc
    cases back with
    | nil => exact hlast (by rw [htext, List.getLast?_concat]) hd
    | cons b back =>
      obtain rfl : b = d := Option.some.inj hd
      exact hpair ⟨front, back, by rw [htext, List.append_assoc]; rfl⟩

/-- Where no block comment begins, none is read. -/
theorem blockComment?_eq_none {text : List Char}
    (h : text.head? = some '/' → text.tail.head? ≠ some '*') : blockComment? text = none := by
  cases text with
  | nil => rfl
  | cons c cs =>
    rw [blockComment?, if_neg]
    rintro ⟨rfl, hd⟩
    exact h rfl hd

/-- Where no line comment begins, none is read. -/
theorem lineComment?_eq_none {text : List Char}
    (h : text.head? = some '/' → text.tail.head? ≠ some '/') : lineComment? text = none := by
  cases text with
  | nil => rfl
  | cons c cs =>
    rw [lineComment?, if_neg]
    rintro ⟨rfl, hd⟩
    exact h rfl hd

/-- Where no quotation mark stands, no literal is read. -/
theorem literal?_eq_none {quote : Char} {text : List Char} (h : text.head? ≠ some quote) :
    literal? quote text = none := by
  cases text with
  | nil => rfl
  | cons c cs =>
    rw [literal?, if_neg]
    rintro rfl
    exact h rfl

/-- A block comment ends where it ends. -/
theorem afterClose_body (rest : List Char) : ∀ {body : List Char}, ¬ ['*', '/'] <:+: body ++ ['*'] →
    afterClose (body ++ '*' :: '/' :: rest) = some rest
  | [], _ => by simp [afterClose]
  | c :: body, h => by
    rw [List.cons_append, afterClose, if_neg]
    · exact afterClose_body rest fun hin => h (hin.trans (List.suffix_cons c _).isInfix)
    · rintro ⟨rfl, hd⟩
      cases body with
      | nil => simp at hd
      | cons d body =>
        obtain rfl : d = '/' := Option.some.inj hd
        exact h ⟨[], body ++ ['*'], rfl⟩

/-- A literal ends at its quotation mark. -/
theorem closeQuote_quote (quote : Char) (rest : List Char) : closeQuote quote (quote :: rest) = some rest := by
  cases rest <;> simp [closeQuote]

/-- Any other character of a literal, neither a backslash nor a line break, is passed over. -/
theorem closeQuote_plain {quote c : Char} {rest : List Char} (hc : c ≠ quote ∧ c ≠ '\\' ∧ c ≠ '\n')
    (hrest : rest ≠ []) : closeQuote quote (c :: rest) = closeQuote quote rest := by
  obtain ⟨d, cs, rfl⟩ := List.exists_cons_of_ne_nil hrest
  rw [closeQuote, if_neg hc.1, if_neg hc.2.1, if_neg hc.2.2]

/-- A literal ends at its quote. -/
theorem closeQuote_pieces {quote : Char} (rest : List Char) (hquote : quote ≠ '\\') :
    ∀ {pieces : List LiteralPiece},
      (∀ piece ∈ pieces, ∀ c, piece = .plain c → c ≠ quote ∧ c ≠ '\\' ∧ c ≠ '\n') → .escape '\n' ∉ pieces →
        closeQuote quote (pieces.flatMap LiteralPiece.text ++ quote :: rest) = some rest
  | [], _, _ => closeQuote_quote quote rest
  | piece :: pieces, hformed, hescape => by
    have ih := closeQuote_pieces rest hquote (fun p hp => hformed p (List.mem_cons_of_mem piece hp))
      fun hp => hescape (List.mem_cons_of_mem piece hp)
    rw [List.flatMap_cons, List.append_assoc]
    cases piece with
    | plain c =>
      rw [LiteralPiece.text, List.singleton_append,
        closeQuote_plain (hformed _ List.mem_cons_self c rfl) (by simp)]
      exact ih
    | escape c =>
      have hc : c ≠ '\n' := by
        rintro rfl
        exact hescape List.mem_cons_self
      rw [LiteralPiece.text, List.cons_append, List.singleton_append, closeQuote, if_neg (Ne.symm hquote),
        if_pos rfl, if_neg hc]
      exact ih

/-- A literal ends in its quotation mark. -/
theorem getLast?_literal (quote : Char) (pieces : List LiteralPiece) :
    (CToken.literal quote pieces).text.getLast? = some quote := by
  rw [CToken.text, List.getLast?_cons]
  simp

section Passes

variable {tokens : List CToken}

/-- The first pass. -/
theorem separates_block : ∀ {tokens : List CToken}, WellLexed tokens → (∀ token ∈ tokens, StripSafe token) →
    Separates blockComment? CToken.text isBlock tokens
  | [], _, _ => trivial
  | token :: tokens, ⟨hformed, hfits, hrest⟩, hsafe => by
    refine ⟨?_, separates_block hrest fun t ht => hsafe t (List.mem_cons_of_mem token ht)⟩
    have htoken := hsafe token List.mem_cons_self
    cases token with
    | code c =>
      intro front back htext hne
      refine blockComment?_eq_none (no_pair ?_ ?_ htext hne)
      · exact fun h => absurd h.length_le (by simp [CToken.text])
      · intro hc
        exact (hfits (Option.some.inj hc)).2
    | literal quote pieces =>
      intro front back htext hne
      refine blockComment?_eq_none (no_pair htoken.1 ?_ htext hne)
      rw [getLast?_literal]
      rintro hquote
      rcases hformed.1 with rfl | rfl <;> cases hquote
    | lineComment body =>
      intro front back htext hne
      refine blockComment?_eq_none (no_pair ?_ ?_ htext hne)
      · intro h
        rcases List.infix_cons_iff.mp h with ⟨tail, htail⟩ | h
        · simp at htail
        · exact htoken h
      · intro _
        rcases hfits with hnil | hline
        · rw [show tokens.flatMap CToken.text = [] from hnil]
          decide
        · rw [show (tokens.flatMap CToken.text).head? = some '\n' from hline]
          decide
    | blockComment body =>
      refine ⟨List.cons_ne_nil _ _, ?_⟩
      rw [CToken.text, List.cons_append, blockComment?, if_pos ⟨rfl, rfl⟩, List.cons_append, List.tail_cons,
        List.append_assoc]
      exact afterClose_body _ hformed

/-- The second pass. -/
theorem separates_line : ∀ {tokens : List CToken}, WellLexed tokens → (∀ token ∈ tokens, StripSafe token) →
    (∀ token ∈ tokens, isBlock token = false) → Separates lineComment? CToken.text isLine tokens
  | [], _, _, _ => trivial
  | token :: tokens, ⟨hformed, hfits, hrest⟩, hsafe, hblock => by
    refine ⟨?_, separates_line hrest (fun t ht => hsafe t (List.mem_cons_of_mem token ht))
      fun t ht => hblock t (List.mem_cons_of_mem token ht)⟩
    have htoken := hsafe token List.mem_cons_self
    cases token with
    | code c =>
      intro front back htext hne
      refine lineComment?_eq_none (no_pair ?_ ?_ htext hne)
      · exact fun h => absurd h.length_le (by simp [CToken.text])
      · intro hc
        exact (hfits (Option.some.inj hc)).1
    | literal quote pieces =>
      intro front back htext hne
      refine lineComment?_eq_none (no_pair htoken.2.1 ?_ htext hne)
      rw [getLast?_literal]
      rintro hquote
      rcases hformed.1 with rfl | rfl <;> cases hquote
    | lineComment body =>
      refine ⟨List.cons_ne_nil _ _, ?_⟩
      have hbody : ∀ c ∈ body, (decide (c ≠ '\n')) = true := fun c hc =>
        decide_eq_true fun hline => hformed (hline ▸ hc)
      have hdrop : (tokens.flatMap CToken.text).dropWhile (· ≠ '\n') = tokens.flatMap CToken.text := by
        rcases hfits with hnil | hline
        · rw [show tokens.flatMap CToken.text = [] from hnil]
          rfl
        · cases htext : tokens.flatMap CToken.text with
          | nil => rfl
          | cons c cs =>
            have hc : c = '\n' := by
              rw [textOf, htext] at hline
              exact Option.some.inj hline
            rw [hc]
            rfl
      rw [CToken.text, List.cons_append, lineComment?, if_pos ⟨rfl, rfl⟩, List.cons_append, List.tail_cons,
        List.dropWhile_append_of_pos hbody, hdrop]
    | blockComment body => exact absurd (hblock _ List.mem_cons_self) (by simp [isBlock])

/-- No literal begins in a text without the quote. -/
theorem literal?_none_of_not_mem {quote : Char} {text front back rest : List Char} (hquote : quote ∉ text)
    (htext : text = front ++ back) (hne : back ≠ []) : literal? quote (back ++ rest) = none := by
  refine literal?_eq_none fun hhead => hquote ?_
  rw [List.head?_append_of_ne_nil _ hne] at hhead
  rw [htext]
  exact List.mem_append_right _ (List.mem_of_mem_head? hhead)

/-- The third pass. -/
theorem separates_string : ∀ {tokens : List CToken}, WellLexed tokens → (∀ token ∈ tokens, StripSafe token) →
    (∀ token ∈ tokens, isBlock token = false ∧ isLine token = false) →
      Separates (literal? '"') CToken.text (isLiteral '"') tokens
  | [], _, _, _ => trivial
  | token :: tokens, ⟨hformed, hfits, hrest⟩, hsafe, hcomments => by
    refine ⟨?_, separates_string hrest (fun t ht => hsafe t (List.mem_cons_of_mem token ht))
      fun t ht => hcomments t (List.mem_cons_of_mem token ht)⟩
    have htoken := hsafe token List.mem_cons_self
    have hother : '"' ∉ token.text → ∀ front back, token.text = front ++ back → back ≠ [] →
        literal? '"' (back ++ tokens.flatMap CToken.text) = none :=
      fun hquote front back => literal?_none_of_not_mem hquote
    cases token with
    | code c => exact hother (by simpa [CToken.text] using Ne.symm hformed.1)
    | literal quote pieces =>
      rcases hformed.1 with rfl | rfl
      · refine ⟨List.cons_ne_nil _ _, ?_⟩
        rw [CToken.text, List.cons_append, literal?, if_pos rfl, List.append_assoc]
        exact closeQuote_pieces _ (by decide) hformed.2 htoken.2.2.2
      · exact hother (htoken.2.2.1 rfl)
    | lineComment body => exact absurd (hcomments _ List.mem_cons_self).2 (by simp [isLine])
    | blockComment body => exact absurd (hcomments _ List.mem_cons_self).1 (by simp [isBlock])

/-- What the third pass leaves of a token. -/
def withoutString (token : CToken) : List Char := if isLiteral '"' token = true then ['"', '"'] else token.text

/-- The fourth pass. -/
theorem separates_character : ∀ {tokens : List CToken}, WellLexed tokens →
    (∀ token ∈ tokens, StripSafe token) → (∀ token ∈ tokens, isBlock token = false ∧ isLine token = false) →
      Separates (literal? '\'') withoutString (isLiteral '\'') tokens
  | [], _, _, _ => trivial
  | token :: tokens, ⟨hformed, hfits, hrest⟩, hsafe, hcomments => by
    refine ⟨?_, separates_character hrest (fun t ht => hsafe t (List.mem_cons_of_mem token ht))
      fun t ht => hcomments t (List.mem_cons_of_mem token ht)⟩
    have htoken := hsafe token List.mem_cons_self
    have hother : '\'' ∉ withoutString token → ∀ front back, withoutString token = front ++ back → back ≠ [] →
        literal? '\'' (back ++ tokens.flatMap withoutString) = none :=
      fun hquote front back => literal?_none_of_not_mem hquote
    cases token with
    | code c => exact hother (by simpa [withoutString, isLiteral, CToken.text] using Ne.symm hformed.2)
    | literal quote pieces =>
      rcases hformed.1 with rfl | rfl
      · exact hother (by simp [withoutString, isLiteral])
      · refine ⟨List.cons_ne_nil _ _, ?_⟩
        have htext : withoutString (.literal '\'' pieces) = (CToken.literal '\'' pieces).text := by
          rw [withoutString, if_neg (by simp [isLiteral])]
        rw [htext, CToken.text, List.cons_append, literal?, if_pos rfl, List.append_assoc]
        exact closeQuote_pieces _ (by decide) hformed.2 htoken.2.2.2
    | lineComment body => exact absurd (hcomments _ List.mem_cons_self).2 (by simp [isLine])
    | blockComment body => exact absurd (hcomments _ List.mem_cons_self).1 (by simp [isBlock])

/-- Leaving out the text of some tokens is the text of the others. -/
theorem flatMap_drop {q : CToken → Bool} (text : CToken → List Char) (tokens : List CToken) :
    tokens.flatMap (fun token => if q token = true then [] else text token) =
      (tokens.filter fun token => !q token).flatMap text := by
  induction tokens with
  | nil => rfl
  | cons token tokens ih =>
    cases hq : q token <;> simp [hq, ih]

/-- **No replacement goes wrong**: the first takes the block comments and nothing else, the second the line
comments of what is left, the third and the fourth the strings and the characters of what is left then. A mark
in the wrong place does no harm where its pattern finds no end: a lone `/*` in a line comment, a lone double
quote in a character. -/
structure StripsRight (tokens : List CToken) : Prop where
  blocks : Separates blockComment? CToken.text isBlock tokens
  lines : Separates lineComment? CToken.text isLine (tokens.filter fun token => !isBlock token)
  strings : Separates (literal? '"') CToken.text (isLiteral '"') (tokens.filter fun token => !isComment token)
  characters :
    Separates (literal? '\'') withoutString (isLiteral '\'') (tokens.filter fun token => !isComment token)

/-- The tokens that are no comments are those that are neither block nor line comments. -/
theorem filter_isComment (tokens : List CToken) :
    (tokens.filter fun token => !isBlock token).filter (fun token => !isLine token) =
      tokens.filter fun token => !isComment token := by
  rw [List.filter_filter]
  refine List.filter_congr fun token _ => ?_
  cases token <;> rfl

/-- **Tokens that cannot be misread are stripped right.** -/
theorem StripsRight.of_stripSafe (hlexed : WellLexed tokens) (hsafe : ∀ token ∈ tokens, StripSafe token) :
    StripsRight tokens := by
  have hnoBlock : WellLexed (tokens.filter fun token => !isBlock token) :=
    hlexed.filter fun token htoken => by cases token <;> simp_all [isBlock, CToken.text]
  have hnoComment : WellLexed (tokens.filter fun token => !isComment token) :=
    hlexed.filter fun token htoken => by cases token <;> simp_all [isComment, isBlock, isLine, CToken.text]
  have hsafe' : ∀ token ∈ tokens.filter fun token => !isComment token, StripSafe token := fun token htoken =>
    hsafe token (List.mem_of_mem_filter htoken)
  have hcomments : ∀ token ∈ tokens.filter fun token => !isComment token,
      isBlock token = false ∧ isLine token = false := fun token htoken => by
    simpa [isComment] using (List.mem_filter.mp htoken).2
  exact {
    blocks := separates_block hlexed hsafe
    lines := separates_line hnoBlock (fun token htoken => hsafe token (List.mem_of_mem_filter htoken))
      fun token htoken => by simpa using (List.mem_filter.mp htoken).2
    strings := separates_string hnoComment hsafe' hcomments
    characters := separates_character hnoComment hsafe' hcomments }

/-- **A body on which no replacement goes wrong loses its comments and what its literals hold.** -/
theorem stripCommentsAndStringLiterals_textOf (hlexed : WellLexed tokens) (hstrip : StripsRight tokens) :
    stripCommentsAndStringLiterals (textOf tokens) = tokens.flatMap scanned := by
  unfold stripCommentsAndStringLiterals
  dsimp only
  rw [textOf, replaceAll_flatMap hstrip.blocks (Nat.le_refl _), flatMap_drop,
    replaceAll_flatMap hstrip.lines (Nat.le_refl _), flatMap_drop, filter_isComment,
    replaceAll_flatMap hstrip.strings (Nat.le_refl _)]
  show replaceAll _ _ (List.flatMap withoutString _).length (List.flatMap withoutString _) = _
  rw [replaceAll_flatMap hstrip.characters (Nat.le_refl _)]
  clear hstrip
  induction tokens with
  | nil => rfl
  | cons token tokens ih =>
    have ih := ih hlexed.2.2
    have hquote := hlexed.1
    cases token with
    | code c => simpa [isComment, isBlock, isLine, isLiteral, withoutString, scanned, CToken.text] using ih
    | literal quote pieces =>
      rcases hquote.1 with rfl | rfl <;>
        simpa [isComment, isBlock, isLine, isLiteral, withoutString, scanned, CToken.text] using ih
    | lineComment body => simpa [isComment, isBlock, isLine, scanned] using ih
    | blockComment body => simpa [isComment, isBlock, scanned] using ih

end Passes

/-! ## The scan -/

/-- A blank or a tab. -/
def isBlank (c : Char) : Bool := c = ' ' || c = '\t'

/-- `\b(?:return|sizeof|case|goto)\s*$` -/
def valueKeyword (charClass : CharClass) : Pattern Unit := do
  Pattern.boundary charClass
  .orElse (.lit "return") <| .orElse (.lit "sizeof") <| .orElse (.lit "case") (.lit "goto")
  let _ ← Pattern.many charClass.space
  fun cursor => if cursor.rest = [] ∨ cursor.rest = ['\n'] then [((), cursor)] else []

/-- **`_looksLikeFunctionPointerReference`**: `front` stands before the name and `rest` after it. -/
def looksLikeFunctionPointerReference (charClass : CharClass) (front rest : List Char) : Bool :=
  match (front.reverse.dropWhile isBlank).head?, (rest.dropWhile isBlank).head? with
  | some prevChar, some nextChar =>
    if nextChar = '\x7b' ∨ nextChar = ':' then false
    else if prevChar = '(' ∨ prevChar = ',' ∨ prevChar = '=' then true
    else Pattern.found (valueKeyword charClass) (String.ofList (front.drop (front.length - 16)))
  | _, _ => false

/-- What makes a match a dependency. -/
def seesDependency (charClass : CharClass) (front rest : List Char) : Bool :=
  rest.head? = some '(' || rest.take 2 = [' ', '('] || rest.take 2 = ['\t', '('] ||
    front.getLast? = some '&' || looksLikeFunctionPointerReference charClass front rest

/-! ## The places that the scan sees -/

/-- A text that ends in a character, blanks and tabs aside. -/
def EndsIn (front : List Char) (prevChar : Char) : Prop :=
  ∃ start blanks, front = start ++ prevChar :: blanks ∧ (∀ c ∈ blanks, isBlank c = true) ∧
    isBlank prevChar = false

/-- A text that begins with a character, blanks and tabs aside. -/
def BeginsWith (rest : List Char) (nextChar : Char) : Prop :=
  ∃ blanks tail, rest = blanks ++ nextChar :: tail ∧ (∀ c ∈ blanks, isBlank c = true) ∧
    isBlank nextChar = false

/-- Something follows, and it is no brace and no colon. -/
def SomethingFollows (rest : List Char) : Prop :=
  ∃ nextChar, BeginsWith rest nextChar ∧ nextChar ≠ '\x7b' ∧ nextChar ≠ ':'

/-- The words that take a value behind them. -/
def valueWords : List String := ["return", "sizeof", "case", "goto"]

/-- **A place of a name that the scan sees**, between `front` and `rest`: a bracket follows directly or after one
blank or tab; an ampersand stands right before it; a bracket, a comma or an equals sign stands before it, or one
of the four words at most 16 characters back, and something goes on behind it that is no brace and no colon. -/
inductive Spotted (charClass : CharClass) (front rest : List Char) : Prop
  | call {gap tail : List Char} (hgap : gap = [] ∨ gap = [' '] ∨ gap = ['\t']) (hrest : rest = gap ++ '(' :: tail)
  | address (hfront : front.getLast? = some '&')
  | operand {prevChar : Char} (hprev : EndsIn front prevChar)
      (hmark : prevChar = '(' ∨ prevChar = ',' ∨ prevChar = '=') (hnext : SomethingFollows rest)
  | keyword {start blanks : List Char} {word : String} (hword : word ∈ valueWords)
      (hfront : front = start ++ (word.toList ++ blanks)) (hblanks : ∀ c ∈ blanks, charClass.space c = true)
      (hreach : word.toList.length + blanks.length ≤ 16)
      (hapart : start.getLast?.any charClass.word = false ∨ word.toList.length + blanks.length = 16)
      (hnext : SomethingFollows rest)

section Spotted

variable {charClass : CharClass} {front rest : List Char}

/-- The first character behind the blanks. -/
theorem head?_dropWhile_isBlank {text : List Char} {c : Char} :
    (text.dropWhile isBlank).head? = some c ↔ BeginsWith text c := by
  constructor
  · intro h
    obtain ⟨tail, htail⟩ := List.head?_eq_some_iff.mp h
    refine ⟨text.takeWhile isBlank, tail, ?_, List.all_eq_true.mp List.all_takeWhile, ?_⟩
    · rw [← htail, List.takeWhile_append_dropWhile]
    · have hnot := List.head?_dropWhile_not isBlank text
      rw [h] at hnot
      simpa using hnot
  · rintro ⟨blanks, tail, rfl, hblanks, hc⟩
    rw [List.dropWhile_append_of_pos hblanks, List.dropWhile_cons_of_neg (by rw [hc]; exact Bool.false_ne_true)]
    rfl

/-- The last character before the blanks. -/
theorem head?_reverse_isBlank {text : List Char} {c : Char} :
    (text.reverse.dropWhile isBlank).head? = some c ↔ EndsIn text c := by
  rw [head?_dropWhile_isBlank]
  constructor
  · rintro ⟨blanks, tail, htext, hblanks, hc⟩
    refine ⟨tail.reverse, blanks.reverse, ?_, fun d hd => hblanks d (List.mem_reverse.mp hd), hc⟩
    rw [← List.reverse_reverse text, htext]
    simp
  · rintro ⟨start, blanks, rfl, hblanks, hc⟩
    exact ⟨blanks.reverse, start.reverse, by simp, fun d hd => hblanks d (List.mem_reverse.mp hd), hc⟩

/-- A word character is no blank. -/
theorem isBlank_of_word {c : Char} (h : charClass.word c = true) : isBlank c = false := by
  refine Bool.eq_false_iff.mpr fun hblank => ?_
  rcases Bool.or_eq_true_iff.mp hblank with hc | hc
  · obtain rfl : c = ' ' := of_decide_eq_true hc
    exact absurd h (by rw [charClass.word_ascii ' ' (by decide)]; decide)
  · obtain rfl : c = '\t' := of_decide_eq_true hc
    exact absurd h (by rw [charClass.word_ascii '\t' (by decide)]; decide)

/-- The four words begin with a word character. -/
theorem exists_head_of_valueWords (charClass : CharClass) {word : String} (hword : word ∈ valueWords) :
    ∃ c cs, word.toList = c :: cs ∧ charClass.word c = true := by
  simp only [valueWords, List.mem_cons, List.not_mem_nil, or_false] at hword
  rcases hword with rfl | rfl | rfl | rfl <;>
    exact ⟨_, _, rfl, by rw [charClass.word_ascii _ (by decide)]; decide⟩

/-- A way of the pattern takes one of the four words and the white space up to the end. -/
theorem valueKeyword_ne_nil {cursor : Cursor} :
    valueKeyword charClass cursor ≠ [] ↔ cursor.before.any charClass.word = false ∧
      ∃ word ∈ valueWords, ∃ blanks, cursor.rest = word.toList ++ blanks ∧ ∀ c ∈ blanks, charClass.space c = true := by
  have hnewline : charClass.space '\n' = true := by
    rw [charClass.space_ascii '\n' (by decide)]
    decide
  constructor
  · intro h
    obtain ⟨way, hway⟩ := List.exists_mem_of_ne_nil _ h
    obtain ⟨first, hfirst, hway⟩ := Pattern.mem_bind.mp hway
    obtain ⟨rfl, hat⟩ := Pattern.mem_boundary.mp hfirst
    obtain ⟨second, hsecond, hway⟩ := Pattern.mem_bind.mp hway
    obtain ⟨word, hword, htaken⟩ : ∃ word ∈ valueWords, cursor.rest = word.toList ++ second.2.rest := by
      rcases Pattern.mem_orElse.mp hsecond with h | h
      · exact ⟨"return", by simp [valueWords], Pattern.of_mem_chars h⟩
      · rcases Pattern.mem_orElse.mp h with h | h
        · exact ⟨"sizeof", by simp [valueWords], Pattern.of_mem_chars h⟩
        · rcases Pattern.mem_orElse.mp h with h | h
          · exact ⟨"case", by simp [valueWords], Pattern.of_mem_chars h⟩
          · exact ⟨"goto", by simp [valueWords], Pattern.of_mem_chars h⟩
    obtain ⟨third, hthird, hway⟩ := Pattern.mem_bind.mp hway
    obtain ⟨hspaces, hall⟩ := Pattern.of_mem_many hthird
    obtain ⟨c, cs, hcons, hc⟩ := exists_head_of_valueWords charClass hword
    refine ⟨?_, word, hword, second.2.rest, htaken, ?_⟩
    · have hhead : cursor.rest.head?.any charClass.word = true := by
        rw [htaken, hcons]
        exact hc
      rw [Pattern.AtBoundary, hhead] at hat
      exact Bool.eq_false_iff.mpr hat
    · have hend : third.2.rest = [] ∨ third.2.rest = ['\n'] := by
        by_contra hend
        rw [if_neg hend] at hway
        cases hway
      intro d hd
      rw [hspaces] at hd
      rcases List.mem_append.mp hd with hd | hd
      · exact hall d hd
      · rcases hend with hend | hend
        · rw [hend] at hd
          cases hd
        · rw [hend] at hd
          obtain rfl := List.mem_singleton.mp hd
          exact hnewline
  · rintro ⟨hbefore, word, hword, blanks, hrest, hblanks⟩
    obtain ⟨before, text⟩ := cursor
    obtain rfl : text = word.toList ++ blanks := hrest
    obtain ⟨c, cs, hcons, hc⟩ := exists_head_of_valueWords charClass hword
    have hat : Pattern.AtBoundary charClass before (word.toList ++ blanks) := by
      rw [Pattern.AtBoundary, hcons, show before.any charClass.word = false from hbefore]
      exact fun h => Bool.false_ne_true (h.trans hc)
    obtain ⟨after, hchars⟩ := Pattern.mem_chars blanks word.toList before
    obtain ⟨stop, hmany⟩ := Pattern.mem_many [] blanks after hblanks
    rw [List.append_nil] at hmany
    have hway : ((), (⟨stop, []⟩ : Cursor)) ∈ valueKeyword charClass ⟨before, word.toList ++ blanks⟩ := by
      refine Pattern.mem_bind.mpr ⟨_, Pattern.mem_boundary.mpr ⟨rfl, hat⟩, ?_⟩
      refine Pattern.mem_bind.mpr ⟨((), ⟨after, blanks⟩), ?_, Pattern.mem_bind.mpr ⟨_, hmany, ?_⟩⟩
      · simp only [valueWords, List.mem_cons, List.not_mem_nil, or_false] at hword
        simp only [Pattern.mem_orElse, Pattern.lit]
        rcases hword with rfl | rfl | rfl | rfl
        · exact .inl hchars
        · exact .inr (.inl hchars)
        · exact .inr (.inr (.inl hchars))
        · exact .inr (.inr (.inr hchars))
      · rw [if_pos (.inl rfl)]
        exact List.mem_singleton_self _
    exact List.ne_nil_of_mem hway

/-- **The pattern is found in the last 16 characters** where one of the four words stands there. -/
theorem found_valueKeyword :
    Pattern.found (valueKeyword charClass) (String.ofList (front.drop (front.length - 16))) = true ↔
      ∃ start blanks, ∃ word ∈ valueWords, front = start ++ (word.toList ++ blanks) ∧
        (∀ c ∈ blanks, charClass.space c = true) ∧ word.toList.length + blanks.length ≤ 16 ∧
          (start.getLast?.any charClass.word = false ∨ word.toList.length + blanks.length = 16) := by
  rw [Pattern.found_iff, String.toList_ofList]
  have hsplit : front = front.take (front.length - 16) ++ front.drop (front.length - 16) :=
    (List.take_append_drop _ _).symm
  have hlength : (front.drop (front.length - 16)).length = min front.length 16 := by
    rw [List.length_drop]
    omega
  have hlast : ∀ text : List Char, Pattern.lastOr none text = text.getLast? := fun text => Option.or_none
  constructor
  · rintro ⟨start, rest, hsnippet, hne⟩
    obtain ⟨hbefore, word, hword, blanks, hrest, hblanks⟩ := valueKeyword_ne_nil.mp hne
    obtain rfl : rest = word.toList ++ blanks := hrest
    rw [hsnippet, List.length_append, List.length_append] at hlength
    refine ⟨front.take (front.length - 16) ++ start, blanks, word, hword, ?_, hblanks, by omega, ?_⟩
    · rw [List.append_assoc, ← hsnippet]
      exact hsplit
    · rw [hlast] at hbefore
      cases start with
      | nil =>
        by_cases hlong : 16 ≤ front.length
        · right
          rw [List.length_nil] at hlength
          omega
        · left
          rw [Nat.sub_eq_zero_of_le (Nat.le_of_not_le hlong)]
          rfl
      | cons c start =>
        left
        rw [List.getLast?_append_of_ne_nil _ (List.cons_ne_nil c start)]
        exact hbefore
  · rintro ⟨start, blanks, word, hword, hfront, hblanks, hreach, hapart⟩
    have hfits : front.length - 16 ≤ start.length := by
      rw [hfront, List.length_append, List.length_append]
      omega
    have hdrop : ∀ n ≤ start.length, front.drop n = start.drop n ++ (word.toList ++ blanks) := fun n hn => by
      rw [hfront, List.drop_append_of_le_length hn]
    refine ⟨start.drop (front.length - 16), word.toList ++ blanks, hdrop _ hfits, valueKeyword_ne_nil.mpr
      ⟨?_, word, hword, blanks, rfl, hblanks⟩⟩
    · show (Pattern.lastOr none _).any charClass.word = false
      rw [hlast]
      rcases hapart with hapart | hfull
      · rcases List.eq_nil_or_concat (start.drop (front.length - 16)) with hnil | ⟨init, c, hconcat⟩
        · rw [hnil]
          rfl
        · rw [← List.take_append_drop (front.length - 16) start, List.getLast?_append_of_ne_nil _
            (by rw [hconcat]; simp)] at hapart
          exact hapart
      · rw [List.drop_eq_nil_of_le]
        · rfl
        · rw [hfront, List.length_append, List.length_append]
          omega

/-- **The test for a function pointer** holds of the operands and of what stands behind the four words. -/
theorem looksLikeFunctionPointerReference_iff :
    looksLikeFunctionPointerReference charClass front rest = true ↔ SomethingFollows rest ∧
      ((∃ prevChar, EndsIn front prevChar ∧ (prevChar = '(' ∨ prevChar = ',' ∨ prevChar = '=')) ∨
        ∃ start blanks, ∃ word ∈ valueWords, front = start ++ (word.toList ++ blanks) ∧
          (∀ c ∈ blanks, charClass.space c = true) ∧ word.toList.length + blanks.length ≤ 16 ∧
            (start.getLast?.any charClass.word = false ∨ word.toList.length + blanks.length = 16)) := by
  rw [← found_valueKeyword]
  unfold looksLikeFunctionPointerReference
  cases hprev : (front.reverse.dropWhile isBlank).head? with
  | none =>
    have hblank : ∀ c ∈ front, isBlank c = true := fun c hc =>
      List.dropWhile_eq_nil_iff.mp (List.head?_eq_none_iff.mp hprev) c (List.mem_reverse.mpr hc)
    refine iff_of_false Bool.false_ne_true ?_
    rintro ⟨-, ⟨prevChar, hends, -⟩ | hfound⟩
    · rw [head?_reverse_isBlank.mpr hends] at hprev
      cases hprev
    · obtain ⟨start, blanks, word, hword, hfront, -⟩ := found_valueKeyword.mp hfound
      obtain ⟨c, cs, hcons, hc⟩ := exists_head_of_valueWords charClass hword
      have hmem : c ∈ front := by
        rw [hfront, hcons]
        simp
      exact Bool.false_ne_true ((isBlank_of_word hc).symm.trans (hblank c hmem))
  | some prevChar =>
    cases hnext : (rest.dropWhile isBlank).head? with
    | none =>
      refine iff_of_false Bool.false_ne_true ?_
      rintro ⟨⟨nextChar, hbegins, -⟩, -⟩
      rw [head?_dropWhile_isBlank.mpr hbegins] at hnext
      cases hnext
    | some nextChar =>
      have hgoes : SomethingFollows rest ↔ ¬ (nextChar = '\x7b' ∨ nextChar = ':') := by
        constructor
        · rintro ⟨c, hbegins, hc⟩
          rw [head?_dropWhile_isBlank.mpr hbegins] at hnext
          obtain rfl := Option.some.inj hnext
          exact not_or.mpr hc
        · exact fun h => ⟨nextChar, head?_dropWhile_isBlank.mp hnext, not_or.mp h⟩
      have hmark : (∃ c, EndsIn front c ∧ (c = '(' ∨ c = ',' ∨ c = '=')) ↔
          prevChar = '(' ∨ prevChar = ',' ∨ prevChar = '=' := by
        constructor
        · rintro ⟨c, hends, hc⟩
          rw [head?_reverse_isBlank.mpr hends] at hprev
          obtain rfl := Option.some.inj hprev
          exact hc
        · exact fun h => ⟨prevChar, head?_reverse_isBlank.mp hprev, h⟩
      rw [hgoes, hmark]
      dsimp only
      split_ifs with hstop hvalue
      · exact iff_of_false id fun h => h.1 hstop
      · exact iff_of_true rfl ⟨hstop, .inl hvalue⟩
      · exact ⟨fun h => ⟨hstop, .inr h⟩, fun h => h.2.resolve_left hvalue⟩

/-- A bracket directly, or after one blank or tab. -/
theorem call_iff : (rest.head? = some '(' ∨ rest.take 2 = [' ', '('] ∨ rest.take 2 = ['\t', '(']) ↔
    ∃ gap tail, (gap = [] ∨ gap = [' '] ∨ gap = ['\t']) ∧ rest = gap ++ '(' :: tail := by
  constructor
  · rintro (h | h | h)
    · obtain ⟨tail, htail⟩ := List.head?_eq_some_iff.mp h
      exact ⟨[], tail, .inl rfl, htail⟩
    · exact ⟨[' '], rest.drop 2, .inr (.inl rfl), by rw [← List.take_append_drop 2 rest, h]; rfl⟩
    · exact ⟨['\t'], rest.drop 2, .inr (.inr rfl), by rw [← List.take_append_drop 2 rest, h]; rfl⟩
  · rintro ⟨gap, tail, rfl | rfl | rfl, rfl⟩
    · exact .inl rfl
    · exact .inr (.inl rfl)
    · exact .inr (.inr rfl)

/-- **The test of the loop** holds of the places that the scan sees. -/
theorem seesDependency_iff : seesDependency charClass front rest = true ↔ Spotted charClass front rest := by
  have hsees : seesDependency charClass front rest = true ↔
      (rest.head? = some '(' ∨ rest.take 2 = [' ', '('] ∨ rest.take 2 = ['\t', '(']) ∨
        front.getLast? = some '&' ∨ looksLikeFunctionPointerReference charClass front rest = true := by
    unfold seesDependency
    simp only [Bool.or_eq_true, decide_eq_true_eq, or_assoc]
  rw [hsees, call_iff, looksLikeFunctionPointerReference_iff]
  constructor
  · rintro (⟨gap, tail, hgap, hrest⟩ | hfront | ⟨hnext, ⟨prevChar, hprev, hmark⟩ |
      ⟨start, blanks, word, hword, hfront, hblanks, hreach, hapart⟩⟩)
    · exact .call hgap hrest
    · exact .address hfront
    · exact .operand hprev hmark hnext
    · exact .keyword hword hfront hblanks hreach hapart hnext
  · rintro (⟨hgap, hrest⟩ | hfront | ⟨hprev, hmark, hnext⟩ | ⟨hword, hfront, hblanks, hreach, hapart, hnext⟩)
    · exact .inl ⟨_, _, hgap, hrest⟩
    · exact .inr (.inl hfront)
    · exact .inr (.inr ⟨hnext, .inl ⟨_, hprev, hmark⟩⟩)
    · exact .inr (.inr ⟨hnext, .inr ⟨_, _, _, hword, hfront, hblanks, hreach, hapart⟩⟩)

end Spotted

/-- `pattern.finditer`: what stands before and after each match of `\bname\b`. -/
def places (charClass : CharClass) (name : List Char) (front : List Char) :
    List Char → List (List Char × List Char)
  | [] => here front []
  | c :: text => here front (c :: text) ++ places charClass name (front ++ [c]) text
where
  /-- The match at a place. -/
  here (front text : List Char) : List (List Char × List Char) :=
    if name <+: text ∧ front.getLast?.any charClass.word ≠ text.head?.any charClass.word ∧
        (front ++ name).getLast?.any charClass.word ≠ (text.drop name.length).head?.any charClass.word then
      [(front, text.drop name.length)]
    else []

/-- **`extractDependFunctions`** -/
def extractDependFunctions (charClass : CharClass) (functionName functionBody : String)
    (allFunctions : List String) : List String :=
  let scannedBody := stripCommentsAndStringLiterals functionBody.toList
  allFunctions.foldl (fun result function =>
    if function = functionName ∨ function ∈ result then result
    else if (places charClass function.toList [] scannedBody).any fun place =>
        seesDependency charClass place.1 place.2 then result ++ [function]
    else result) []

/-! ## What is found -/

variable {charClass : CharClass}

/-- **The name of a function**: word characters, at least one. -/
def IsIdentifier (charClass : CharClass) (name : String) : Prop :=
  name.toList ≠ [] ∧ ∀ c ∈ name.toList, charClass.word c = true

/-- A text that begins with a name begins with a character of a word. -/
theorem IsIdentifier.head {name : String} (h : IsIdentifier charClass name) (rest : List Char) :
    (name.toList ++ rest).head?.any charClass.word = true := by
  obtain ⟨c, cs, hname⟩ := List.exists_cons_of_ne_nil h.1
  rw [hname]
  exact h.2 c (hname ▸ List.mem_cons_self)

/-- A text that ends in a name ends in a character of a word. -/
theorem IsIdentifier.last {name : String} (h : IsIdentifier charClass name) (front : List Char) :
    (front ++ name.toList).getLast?.any charClass.word = true := by
  rw [List.getLast?_append_of_ne_nil _ h.1, List.getLast?_eq_some_getLast h.1]
  exact h.2 _ (List.getLast_mem h.1)

/-- A match of an identifier: it stands there, and no word goes on around it. -/
theorem mem_places {name : String} (hname : IsIdentifier charClass name) {place : List Char × List Char} :
    ∀ {text front : List Char}, place ∈ places charClass name.toList front text ↔
      ∃ mid, text = mid ++ (name.toList ++ place.2) ∧ place.1 = front ++ mid ∧
        place.1.getLast?.any charClass.word = false ∧ place.2.head?.any charClass.word = false := by
  have hhere : ∀ {front text : List Char}, place ∈ places.here charClass name.toList front text ↔
      text = name.toList ++ place.2 ∧ place.1 = front ∧ place.1.getLast?.any charClass.word = false ∧
        place.2.head?.any charClass.word = false := by
    intro front text
    unfold places.here
    split
    · rename_i h
      obtain ⟨⟨rest, rfl⟩, hstart, hstop⟩ := h
      rw [hname.head, ne_eq, Bool.not_eq_true] at hstart
      rw [hname.last, List.drop_left, ne_comm, ne_eq, Bool.not_eq_true] at hstop
      rw [List.drop_left, List.mem_singleton]
      constructor
      · rintro rfl
        exact ⟨rfl, rfl, hstart, hstop⟩
      · rintro ⟨htext, hfront, -, -⟩
        exact Prod.ext hfront (List.append_cancel_left htext).symm
    · rename_i h
      constructor
      · exact fun hmem => absurd hmem List.not_mem_nil
      · rintro ⟨rfl, rfl, hstart, hstop⟩
        refine absurd ⟨List.prefix_append _ _, ?_, ?_⟩ h
        · rw [hname.head, hstart]
          decide
        · rw [hname.last, List.drop_left, hstop]
          decide
  intro text
  induction text with
  | nil =>
    intro front
    rw [places, hhere]
    constructor
    · rintro ⟨htext, hfront, h⟩
      exact ⟨[], htext, by rw [hfront, List.append_nil], h⟩
    · rintro ⟨mid, htext, hfront, h⟩
      obtain ⟨rfl, hname⟩ := List.append_eq_nil_iff.mp htext.symm
      exact ⟨hname.symm, by rw [hfront, List.append_nil], h⟩
  | cons c text ih =>
    intro front
    rw [places, List.mem_append, hhere, ih]
    constructor
    · rintro (⟨htext, hfront, h⟩ | ⟨mid, htext, hfront, h⟩)
      · exact ⟨[], htext, by rw [hfront, List.append_nil], h⟩
      · exact ⟨c :: mid, congrArg (c :: ·) htext, by rw [hfront, List.append_assoc]; rfl, h⟩
    · rintro ⟨mid, htext, hfront, h⟩
      cases mid with
      | nil => exact .inl ⟨htext, by rw [hfront, List.append_nil], h⟩
      | cons d mid =>
        obtain ⟨rfl, hrest⟩ := List.cons.inj htext
        exact .inr ⟨mid, hrest, by rw [hfront, List.append_assoc]; rfl, h⟩

/-- **What the scan returns**: the other functions with a match that is a dependency. -/
theorem mem_extractDependFunctions {functionName functionBody : String} {allFunctions : List String}
    {function : String} :
    function ∈ extractDependFunctions charClass functionName functionBody allFunctions ↔
      function ∈ allFunctions ∧ function ≠ functionName ∧
        ∃ place ∈ places charClass function.toList [] (stripCommentsAndStringLiterals functionBody.toList),
          seesDependency charClass place.1 place.2 = true := by
  unfold extractDependFunctions
  dsimp only
  generalize stripCommentsAndStringLiterals functionBody.toList = scannedBody
  have hfold : ∀ (functions result : List String),
      function ∈ functions.foldl (fun result function =>
        if function = functionName ∨ function ∈ result then result
        else if (places charClass function.toList [] scannedBody).any fun place =>
            seesDependency charClass place.1 place.2 then result ++ [function]
        else result) result ↔
      function ∈ result ∨ function ∈ functions ∧ function ≠ functionName ∧
        ∃ place ∈ places charClass function.toList [] scannedBody,
          seesDependency charClass place.1 place.2 = true := by
    intro functions
    induction functions with
    | nil => intro result; simp
    | cons g functions ih =>
      intro result
      rw [List.foldl_cons, ih]
      by_cases hskip : g = functionName ∨ g ∈ result
      · rw [if_pos hskip]
        grind
      · rw [if_neg hskip]
        split
        · rename_i hany
          rw [List.any_eq_true] at hany
          grind
        · rename_i hany
          rw [List.any_eq_true] at hany
          grind
  rw [hfold]
  simp

/-! ## What a body depends on -/

/-- What the stripping leaves of a row of tokens. -/
def scannedOf (tokens : List CToken) : List Char := tokens.flatMap scanned

/-- **An identifier token of a body**: its characters, with no word going on before or after. -/
structure Occurs (charClass : CharClass) (tokens : List CToken) (name : String) (before after : List CToken) :
    Prop where
  split : tokens = before ++ (name.toList.map .code ++ after)
  start : (codeOf before).getLast?.any charClass.word = false
  stop : (codeOf after).head?.any charClass.word = false

/-- The code before a place, up to its last character that is no white space. -/
def codeBefore (charClass : CharClass) (before : List CToken) : List Char :=
  ((codeOf before).reverse.dropWhile charClass.space).reverse

/-- The code behind a place, from its first character on that is no white space. -/
def codeAfter (charClass : CharClass) (after : List CToken) : List Char := (codeOf after).dropWhile charClass.space

/-- **Call position**: a bracket follows, after any white space. -/
def InCallPosition (charClass : CharClass) (after : List CToken) : Prop :=
  (codeAfter charClass after).head? = some '('

/-- The marks behind which the value of a function can stand: operators, what opens a list or goes on with one,
and the bracket that closes a cast. A star is none of them, since it may belong to a declaration. -/
def valueMarks : List Char := ['&', '(', ')', '\x7b', ',', '=', '?', ':', '!', '|']

/-- The marks that can follow a value which is not called. -/
def endMarks : List String := [")", "]", "\x7d", ",", ";", "?", "==", "!=", "&&", "||"]

/-- What stands before a place takes a value: one of the marks or the word `return`. -/
def TakesValue (charClass : CharClass) (before : List CToken) : Prop :=
  (∃ mark ∈ valueMarks, (codeBefore charClass before).getLast? = some mark) ∨
    ∃ front, codeBefore charClass before = front ++ "return".toList ∧ front.getLast?.any charClass.word = false

/-- A value ends at a place: one of the marks follows, or the colon of a conditional (behind a brace, a bracket or
another colon it may be the colon of a label). -/
def EndsValue (charClass : CharClass) (before after : List CToken) : Prop :=
  (∃ mark ∈ endMarks, mark.toList <+: codeAfter charClass after) ∨
    (codeAfter charClass after).head? = some ':' ∧
      ∀ mark, (codeBefore charClass before).getLast? = some mark → mark ≠ '\x7b' ∧ mark ≠ ')' ∧ mark ≠ ':'

/-- **An address or callback use** of a name: it stands where a value does, and is not called there. -/
def UsedAsValue (charClass : CharClass) (before after : List CToken) : Prop :=
  TakesValue charClass before ∧ EndsValue charClass before after

/-- The body calls the function or uses its value. -/
def CallsOrUses (charClass : CharClass) (tokens : List CToken) (f : String) : Prop :=
  ∃ before after, Occurs charClass tokens f before after ∧
    (InCallPosition charClass after ∨ UsedAsValue charClass before after)

/-- **The dependencies are found**: every other function that the body calls or uses as a value, and none that is
only named in comments and literals. -/
structure FindsDependencies (charClass : CharClass) (functionName : String) (tokens : List CToken)
    (allFunctions : List String) : Prop where
  complete : ∀ f ∈ allFunctions, f ≠ functionName → CallsOrUses charClass tokens f →
    f ∈ extractDependFunctions charClass functionName (String.ofList (textOf tokens)) allFunctions
  sound : ∀ f ∈ extractDependFunctions charClass functionName (String.ofList (textOf tokens)) allFunctions,
    ∃ before after, Occurs charClass tokens f before after

/-- **Every function that the body depends on stands somewhere where the scan sees it.** -/
def Seen (charClass : CharClass) (functionName : String) (tokens : List CToken) (allFunctions : List String) : Prop :=
  ∀ f ∈ allFunctions, f ≠ functionName → CallsOrUses charClass tokens f →
    ∃ before after, Occurs charClass tokens f before after ∧ Spotted charClass (scannedOf before) (scannedOf after)

/-- **A body that is safe to scan**: no replacement goes wrong on it, and no comment joins two words when it is
taken out. -/
structure ScanSafe (charClass : CharClass) (tokens : List CToken) : Prop where
  lexed : WellLexed tokens
  strip : StripsRight tokens
  apart : ∀ front token back, tokens = front ++ token :: back → isComment token = true →
    ¬ ((scannedOf front).getLast?.any charClass.word = true ∧ (scannedOf back).head?.any charClass.word = true)

/-- Outside of comments the two ways of blanking a token agree. -/
theorem scanned_eq_blanked {token : CToken} (h : isComment token = false) : scanned token = token.blanked := by
  cases token with
  | code | literal => rfl
  | lineComment => cases h
  | blockComment => cases h

/-- A comment is a blank to one of them and nothing to the other. This is the only difference. -/
theorem blanked_of_comment {token : CToken} (h : isComment token = true) :
    scanned token = [] ∧ token.blanked = [' '] := by
  cases token with
  | code | literal => cases h
  | lineComment | blockComment => exact ⟨rfl, rfl⟩

/-- No token is blanked to nothing, so blanked tokens stay apart. -/
theorem blanked_ne_nil (token : CToken) : token.blanked ≠ [] := by
  cases token <;> simp [CToken.blanked]

section Places

variable {tokens : List CToken}

/-- A blank is no character of a word. -/
theorem word_blank (charClass : CharClass) : charClass.word ' ' = false := charClass.word_ascii ' ' (by decide)

/-- No word ends before a place in the code if none does in what was scanned; a comment makes the
difference. -/
theorem getLast?_codeOf {before : List CToken}
    (h : (scannedOf before).getLast?.any charClass.word = false) :
    (codeOf before).getLast?.any charClass.word = false := by
  cases before using List.reverseRecOn with
  | nil => rfl
  | append_singleton before token =>
    have hcode : (codeOf (before ++ [token])).getLast? = token.blanked.getLast? := by
      rw [codeOf, List.flatMap_append, List.flatMap_singleton, List.getLast?_append_of_ne_nil _ (blanked_ne_nil token)]
    rw [hcode]
    cases hcomment : isComment token with
    | true =>
      rw [(blanked_of_comment hcomment).2]
      exact word_blank charClass
    | false =>
      rw [scannedOf, List.flatMap_append, List.flatMap_singleton, scanned_eq_blanked hcomment,
        List.getLast?_append_of_ne_nil _ (blanked_ne_nil token)] at h
      exact h

/-- If no word follows where comments count as nothing, none follows where they count as blanks. -/
theorem head?_codeOf {after : List CToken} (h : (scannedOf after).head?.any charClass.word = false) :
    (codeOf after).head?.any charClass.word = false := by
  cases after with
  | nil => rfl
  | cons token after =>
    have hcode : (codeOf (token :: after)).head? = token.blanked.head? := by
      rw [codeOf, List.flatMap_cons, List.head?_append_of_ne_nil _ (blanked_ne_nil token)]
    rw [hcode]
    cases hcomment : isComment token with
    | true =>
      rw [(blanked_of_comment hcomment).2]
      exact word_blank charClass
    | false =>
      rw [scannedOf, List.flatMap_cons, scanned_eq_blanked hcomment,
        List.head?_append_of_ne_nil _ (blanked_ne_nil token)] at h
      exact h

/-- Tokens are scanned one by one. -/
theorem scannedOf_append (before after : List CToken) :
    scannedOf (before ++ after) = scannedOf before ++ scannedOf after := List.flatMap_append

/-- Code is scanned as it stands. -/
theorem scannedOf_code (text : List Char) : scannedOf (text.map .code) = text := by
  induction text with
  | nil => rfl
  | cons c text ih => exact congrArg (c :: ·) ih

/-- **An identifier token is scanned as an identifier.** -/
theorem Occurs.scanned (hsafe : ScanSafe charClass tokens) {name : String}
    (hname : IsIdentifier charClass name) {before after : List CToken}
    (h : Occurs charClass tokens name before after) :
    (scannedOf before).getLast?.any charClass.word = false ∧
      (scannedOf after).head?.any charClass.word = false := by
  have hsplit := h.split
  constructor
  · cases before using List.reverseRecOn with
    | nil => rfl
    | append_singleton before token =>
      cases hcomment : isComment token with
      | true =>
        have happart := hsafe.apart before token (name.toList.map .code ++ after)
          (by rw [hsplit, List.append_assoc]; rfl) hcomment
        rw [scannedOf_append (name.toList.map .code), scannedOf_code, hname.head] at happart
        rw [scannedOf_append, scannedOf, scannedOf, List.flatMap_singleton, (blanked_of_comment hcomment).1,
          List.append_nil]
        exact Bool.eq_false_iff.mpr fun hword => happart ⟨hword, rfl⟩
      | false =>
        have hstart := h.start
        rw [codeOf, List.flatMap_append, List.flatMap_singleton,
          List.getLast?_append_of_ne_nil _ (blanked_ne_nil token)] at hstart
        rw [scannedOf_append, scannedOf, scannedOf, List.flatMap_singleton, scanned_eq_blanked hcomment,
          List.getLast?_append_of_ne_nil _ (blanked_ne_nil token)]
        exact hstart
  · cases after with
    | nil => rfl
    | cons token after =>
      cases hcomment : isComment token with
      | true =>
        have happart := hsafe.apart (before ++ name.toList.map .code) token after
          (by rw [hsplit, List.append_assoc]) hcomment
        rw [scannedOf_append before, scannedOf_code, hname.last] at happart
        rw [scannedOf, List.flatMap_cons, (blanked_of_comment hcomment).1, List.nil_append]
        exact Bool.eq_false_iff.mpr fun hword => happart ⟨rfl, hword⟩
      | false =>
        have hstop := h.stop
        rw [codeOf, List.flatMap_cons, List.head?_append_of_ne_nil _ (blanked_ne_nil token)] at hstop
        rw [scannedOf, List.flatMap_cons, scanned_eq_blanked hcomment,
          List.head?_append_of_ne_nil _ (blanked_ne_nil token)]
        exact hstop

/-- A word character that was scanned is a character of the code. -/
theorem exists_code {c : Char} (hc : charClass.word c = true) : ∀ {tokens : List CToken} {front rest : List Char},
    WellLexed tokens → scannedOf tokens = front ++ c :: rest →
      ∃ before after, tokens = before ++ .code c :: after ∧ scannedOf before = front ∧ scannedOf after = rest
  | [], front, rest, _, h => by simp [scannedOf] at h
  | token :: tokens, front, rest, ⟨hformed, hfits, hrest⟩, h => by
    have hquote : charClass.word '"' = false ∧ charClass.word '\'' = false :=
      ⟨charClass.word_ascii '"' (by decide), charClass.word_ascii '\'' (by decide)⟩
    have hskip : ∀ front', front = scanned token ++ front' → scannedOf tokens = front' ++ c :: rest →
        ∃ before after, token :: tokens = before ++ .code c :: after ∧ scannedOf before = front ∧
          scannedOf after = rest := by
      intro front' hfront htokens
      obtain ⟨before, after, hsplit, hbefore, hafter⟩ := exists_code hc hrest htokens
      refine ⟨token :: before, after, by rw [hsplit]; rfl, ?_, hafter⟩
      rw [scannedOf, List.flatMap_cons, hfront]
      exact congrArg (scanned token ++ ·) hbefore
    rw [scannedOf, List.flatMap_cons] at h
    cases token with
    | lineComment | blockComment => exact hskip front rfl h
    | code d =>
      cases front with
      | nil =>
        obtain ⟨rfl, hafter⟩ := List.cons.inj h
        exact ⟨[], tokens, rfl, rfl, hafter⟩
      | cons e front =>
        obtain ⟨rfl, hafter⟩ := List.cons.inj h
        exact hskip front rfl hafter
    | literal quote pieces =>
      have hne : c ≠ quote := by
        rintro rfl
        rcases hformed.1 with rfl | rfl
        · exact Bool.false_ne_true (hquote.1.symm.trans hc)
        · exact Bool.false_ne_true (hquote.2.symm.trans hc)
      rcases front with _ | ⟨e, _ | ⟨e', front⟩⟩
      · exact absurd (List.cons.inj h).1.symm hne
      · exact absurd (List.cons.inj (List.cons.inj h).2).1.symm hne
      · obtain ⟨rfl, h'⟩ := List.cons.inj h
        obtain ⟨rfl, hafter⟩ := List.cons.inj h'
        exact hskip front rfl hafter

/-- Word characters that were scanned in a row are tokens in a row. -/
theorem exists_codes (hsafe : ScanSafe charClass tokens) : ∀ {text : List Char} {before after : List CToken}
    {rest : List Char}, (∀ c ∈ text, charClass.word c = true) → tokens = before ++ after →
      (scannedOf before).getLast?.any charClass.word = true → scannedOf after = text ++ rest →
        ∃ after', after = text.map .code ++ after' ∧ scannedOf after' = rest
  | [], before, after, rest, _, _, _, h => ⟨after, rfl, h⟩
  | c :: text, before, after, rest, hword, hsplit, hlast, h => by
    have hc := hword c List.mem_cons_self
    cases after with
    | nil => simp [scannedOf] at h
    | cons token after =>
      cases hcomment : isComment token with
      | true =>
        have happart := hsafe.apart before token after hsplit hcomment
        rw [scannedOf, List.flatMap_cons, (blanked_of_comment hcomment).1, List.nil_append] at h
        have hhead : (scannedOf after).head?.any charClass.word = true := by
          rw [scannedOf, h]
          exact hc
        exact absurd ⟨hlast, hhead⟩ happart
      | false =>
        have hlexed : WellLexed (token :: after) := by
          have := hsafe.lexed
          rw [hsplit] at this
          clear hsplit hlast hsafe
          induction before with
          | nil => exact this
          | cons _ before ih => exact ih this.2.2
        have hscanned : scannedOf (token :: after) = [] ++ c :: (text ++ rest) := h
        obtain ⟨skipped, after', hcut, hskipped, hafter⟩ := exists_code hc hlexed hscanned
        cases skipped with
        | cons t skipped =>
          obtain ⟨rfl, -⟩ := List.cons.inj hcut
          rw [scannedOf, List.flatMap_cons, scanned_eq_blanked hcomment] at hskipped
          exact absurd (List.append_eq_nil_iff.mp hskipped).1 (blanked_ne_nil token)
        | nil =>
          obtain ⟨rfl, rfl⟩ := List.cons.inj hcut
          have hbefore : (scannedOf (before ++ [.code c])).getLast?.any charClass.word = true := by
            rw [scannedOf_append]
            simpa [scannedOf, scanned] using hc
          obtain ⟨after'', hafter'', hrest⟩ := exists_codes hsafe
            (fun d hd => hword d (List.mem_cons_of_mem c hd)) (by rw [hsplit]; simp) hbefore hafter
          exact ⟨after'', by rw [hafter'']; rfl, hrest⟩

/-- **What was scanned as an identifier is an identifier token.** -/
theorem exists_occurs (hsafe : ScanSafe charClass tokens) {name : String} (hname : IsIdentifier charClass name)
    {front rest : List Char} (htext : scannedOf tokens = front ++ (name.toList ++ rest))
    (hstart : front.getLast?.any charClass.word = false) (hstop : rest.head?.any charClass.word = false) :
    ∃ before after, Occurs charClass tokens name before after ∧ scannedOf before = front ∧
      scannedOf after = rest := by
  obtain ⟨c, cs, hcons⟩ := List.exists_cons_of_ne_nil hname.1
  rw [hcons, List.cons_append] at htext
  have hword : ∀ d ∈ c :: cs, charClass.word d = true := hcons ▸ hname.2
  obtain ⟨before, after, hsplit, hbefore, hafter⟩ := exists_code (hword c List.mem_cons_self) hsafe.lexed htext
  have hlast : (scannedOf (before ++ [.code c])).getLast?.any charClass.word = true := by
    rw [scannedOf_append]
    simpa [scannedOf, scanned] using hword c List.mem_cons_self
  obtain ⟨after', hafter', hrest⟩ := exists_codes hsafe (fun d hd => hword d (List.mem_cons_of_mem c hd))
    (by rw [hsplit]; simp) hlast hafter
  refine ⟨before, after', ⟨?_, getLast?_codeOf (hbefore ▸ hstart), head?_codeOf (hrest ▸ hstop)⟩, hbefore, hrest⟩
  rw [hsplit, hafter', hcons]
  rfl

end Places

/-- **A function is returned** exactly if an identifier token of it stands where the scan sees it. -/
theorem mem_extract_iff {functionName : String} {tokens : List CToken} (hsafe : ScanSafe charClass tokens)
    {allFunctions : List String} {f : String} (hname : IsIdentifier charClass f) :
    f ∈ extractDependFunctions charClass functionName (String.ofList (textOf tokens)) allFunctions ↔
      f ∈ allFunctions ∧ f ≠ functionName ∧ ∃ before after, Occurs charClass tokens f before after ∧
        Spotted charClass (scannedOf before) (scannedOf after) := by
  rw [mem_extractDependFunctions, String.toList_ofList,
    stripCommentsAndStringLiterals_textOf hsafe.lexed hsafe.strip]
  refine and_congr_right fun _ => and_congr_right fun _ => ?_
  constructor
  · rintro ⟨⟨front, rest⟩, hplace, hsees⟩
    obtain ⟨mid, htext, hfront, hstart, hstop⟩ := (mem_places hname).mp hplace
    obtain rfl : front = mid := hfront
    obtain ⟨before, after, hoccurs, rfl, rfl⟩ := exists_occurs hsafe hname htext hstart hstop
    exact ⟨before, after, hoccurs, seesDependency_iff.mp hsees⟩
  · rintro ⟨before, after, hoccurs, hsees⟩
    obtain ⟨hstart, hstop⟩ := hoccurs.scanned hsafe hname
    refine ⟨(scannedOf before, scannedOf after), (mem_places hname).mpr ⟨_, ?_, rfl, hstart, hstop⟩,
      seesDependency_iff.mpr hsees⟩
    show scannedOf tokens = _
    rw [hoccurs.split, scannedOf_append, scannedOf_append, scannedOf_code]
    rfl

/-- **When the dependencies are found.** On a body that no replacement goes wrong on, every function that is called or
used as a value is returned, and none that only comments and literals name, exactly if each of them stands somewhere
where the scan sees it. -/
theorem extractDependFunctions_iff {functionName : String} {tokens : List CToken}
    (hsafe : ScanSafe charClass tokens) {allFunctions : List String}
    (hnames : ∀ f ∈ allFunctions, IsIdentifier charClass f) :
    FindsDependencies charClass functionName tokens allFunctions ↔
      Seen charClass functionName tokens allFunctions := by
  constructor
  · intro h f hf hne hdepends
    exact ((mem_extract_iff hsafe (hnames f hf)).mp (h.complete f hf hne hdepends)).2.2
  · intro h
    constructor
    · intro f hf hne hdepends
      exact (mem_extract_iff hsafe (hnames f hf)).mpr ⟨hf, hne, h f hf hne hdepends⟩
    · intro f hf
      obtain ⟨before, after, hoccurs, -⟩ :=
        ((mem_extract_iff hsafe (hnames f (mem_extractDependFunctions.mp hf).1)).mp hf).2.2
      exact ⟨before, after, hoccurs⟩

/-- `f()//g` -/
def calledAndNamed : List CToken := [.code 'f', .code '(', .code ')', .lineComment ['g']]

/-- The theorem at a body that calls one function and only names another. -/
theorem extractDependFunctions_iff_calledAndNamed :
    FindsDependencies .ascii "m" calledAndNamed ["f", "g", "m"] := by
  have hlexed : WellLexed calledAndNamed := by
    simp [calledAndNamed, WellLexed, WellFormed, Fits, textOf, CToken.text]
  have hstrip : ∀ token ∈ calledAndNamed, StripSafe token := by
    intro token htoken
    have htokens : token = .code 'f' ∨ token = .code '(' ∨ token = .code ')' ∨ token = .lineComment ['g'] := by
      simpa [calledAndNamed] using htoken
    rcases htokens with rfl | rfl | rfl | rfl
    · trivial
    · trivial
    · trivial
    · exact fun h => absurd h (by decide)
  have happart : ∀ front token back, calledAndNamed = front ++ token :: back → isComment token = true →
      ¬ ((scannedOf front).getLast?.any CharClass.ascii.word = true ∧
        (scannedOf back).head?.any CharClass.ascii.word = true) := by
    intro front token back hsplit hcomment
    have hback : back = [] := by
      have hcode : ∀ c, isComment (.code c) ≠ true := fun _ => Bool.false_ne_true
      simp only [calledAndNamed, List.cons_eq_append_iff, List.nil_eq, List.append_eq_nil_iff] at hsplit
      grind
    rw [hback]
    exact fun h => Bool.false_ne_true h.2
  have hnames : ∀ f ∈ ["f", "g", "m"], IsIdentifier .ascii f := by
    intro f hf
    simp only [List.mem_cons, List.not_mem_nil, or_false] at hf
    rcases hf with rfl | rfl | rfl <;> exact ⟨by decide, List.all_eq_true.mp (by decide)⟩
  refine (extractDependFunctions_iff ⟨hlexed, .of_stripSafe hlexed hstrip, happart⟩ hnames).mpr ?_
  intro f hf hne hdepends
  simp only [List.mem_cons, List.not_mem_nil, or_false] at hf
  rcases hf with rfl | rfl | rfl
  · exact ⟨[], [.code '(', .code ')', .lineComment ['g']], ⟨rfl, rfl, by decide⟩, .call (.inl rfl) rfl⟩
  · obtain ⟨before, after, hoccurs, -⟩ := hdepends
    have hmem : CToken.code 'g' ∈ calledAndNamed := by
      rw [hoccurs.split]
      simp
    exact absurd hmem (by decide)
  · exact absurd rfl hne

/-- The bracket of a call stands on the next line. -/
theorem extractDependFunctions_nextLine :
    ¬ FindsDependencies .ascii "m" [.code 'f', .code '\n', .code '(', .code ')'] ["f"] := by
  intro h
  have hmem := h.complete "f" List.mem_cons_self (by decide)
    ⟨[], [.code '\n', .code '(', .code ')'], ⟨rfl, rfl, by decide⟩, .inl (by unfold InCallPosition; decide)⟩
  revert hmem
  decide +kernel

end Assure
