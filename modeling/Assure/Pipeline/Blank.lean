import Assure.Library.RustText
import Assure.Library.Substitution

/-!
# Blanked texts

`_blank` replaces the comments and literals of a Rust source by blanks, so that every brace and every `fn` that
is left is code. A match of its pattern is found by what follows it (`literalEnd?`). The prefix of a byte
literal goes with the literal, so a text is taken apart into tokens with or without that prefix (`pieces`).

What is proved here is for tokens between which no literal can be misread (`BlankSafe`). Exactly
when that is so, over all texts, is the subject of `Assure.Pipeline.BlankedText`.
-/

namespace Assure

open Assure.Library RustToken

/-! ## The pattern -/

/-- What follows the end of so many nested comments. -/
def closeNested : Nat → List Char → List Char
  | 0, cs => cs
  | _ + 1, [] => []
  | _ + 1, [_] => []
  | n + 1, c :: d :: cs =>
    if c = '*' ∧ d = '/' then closeNested n cs
    else if c = '/' ∧ d = '*' then closeNested (n + 2) cs
    else closeNested (n + 1) (d :: cs)

/-- What follows the first place of a text that is not empty. -/
def afterFirst (close : List Char) : List Char → List Char
  | [] => []
  | c :: cs => if close <+: c :: cs then (c :: cs).drop close.length else afterFirst close cs

/-- `r(\#*)"` and what it begins. -/
def rawEnd? (cs : List Char) : Option (List Char) :=
  match cs.dropWhile (· = '#') with
  | [] => none
  | c :: body => if c = '"' then some (afterFirst ('"' :: cs.takeWhile (· = '#')) body) else none

/-- `(?:[^"\\]|\\.)*"` -/
def stringEnd? : List Char → Option (List Char)
  | [] => none
  | [c] => if c = '"' then some [] else none
  | c :: d :: cs =>
    if c = '"' then some (d :: cs)
    else if c = '\\' then stringEnd? cs
    else stringEnd? (d :: cs)

/-- `[^\n]*?'` -/
def untilApostrophe : List Char → Option (List Char)
  | [] => none
  | c :: cs => if c = '\'' then some cs else if c = '\n' then none else untilApostrophe cs

/-- `(?:[^'\\\n]|\\[^\n]+?)'` -/
def characterEnd? : List Char → Option (List Char)
  | [] => none
  | [_] => none
  | c :: d :: cs =>
    if c = '\\' then if d = '\n' then none else untilApostrophe cs
    else if c ≠ '\'' ∧ c ≠ '\n' ∧ d = '\'' then some cs
    else none

/-- A literal without the prefix of a byte literal. -/
def quotedEnd? : List Char → Option (List Char)
  | [] => none
  | c :: cs =>
    if c = 'r' then rawEnd? cs
    else if c = '"' then stringEnd? cs
    else if c = '\'' then characterEnd? cs
    else none

/-- **`_LITERAL_RE`**, a block comment to its end. -/
def literalEnd? : List Char → Option (List Char)
  | [] => none
  | c :: cs =>
    if c = '/' then
      if cs.head? = some '/' then some (cs.tail.dropWhile (· ≠ '\n'))
      else if cs.head? = some '*' then some (closeNested 1 cs.tail)
      else none
    else if c = 'b' then quotedEnd? cs
    else quotedEnd? (c :: cs)

/-- `re.sub(r"[^\n]", " ", …)` -/
def blanks (text : List Char) : List Char := text.map fun c => if c = '\n' then c else ' '

/-- **`_blank`** -/
def blank (source : List Char) : List Char := replaceAll literalEnd? blanks source.length source

/-! ## Tokens and the byte prefix -/

/-- A literal. -/
def isLiteral : RustToken → Bool
  | .str _ | .rawStr _ _ | .chr _ | .escaped _ _ => true
  | _ => false

/-- A token, and whether it has a byte prefix. -/
def pieces : List RustToken → List (Bool × RustToken)
  | [] => []
  | [token] => [(false, token)]
  | token :: next :: tokens =>
    if token = .code 'b' ∧ isLiteral next = true then (true, next) :: pieces tokens
    else (false, token) :: pieces (next :: tokens)

/-- The text of a piece. -/
def pieceText (piece : Bool × RustToken) : List Char := (if piece.1 then ['b'] else []) ++ piece.2.text

/-- A piece that is blanked. -/
def isBlanked (piece : Bool × RustToken) : Bool :=
  match piece.2 with
  | .code _ | .lifetime _ => false
  | _ => true

/-- **The code of a source**: its text, with the literals and comments blank. -/
def blankedOf (tokens : List RustToken) : List Char :=
  (pieces tokens).flatMap fun piece => if isBlanked piece = true then blanks (pieceText piece) else pieceText piece

/-- The pieces of a row of tokens make up its text. -/
theorem pieces_text (tokens : List RustToken) : (pieces tokens).flatMap pieceText = textOf tokens := by
  fun_induction pieces tokens with
  | case1 => rfl
  | case2 token => simp [pieceText]
  | case3 token next tokens h ih =>
    obtain ⟨rfl, -⟩ := h
    rw [List.flatMap_cons, ih]
    simp [pieceText, RustToken.text]
  | case4 token next tokens h ih =>
    rw [List.flatMap_cons, ih]
    simp [pieceText]

/-! ## What the pattern matches -/

/-- Nested comments are closed where their tail says. -/
theorem closeNested_tail (rest : List Char) (n : Nat) (tail : List Char) (h : closesComments n tail = true) :
    closeNested n (tail ++ rest) = rest := by
  fun_induction closesComments n tail with
  | case1 cs =>
    obtain rfl := List.isEmpty_iff.mp h
    rw [List.nil_append, closeNested]
  | case2 => cases h
  | case3 => cases h
  | case4 n c d cs hend ih => rw [List.cons_append, List.cons_append, closeNested, if_pos hend, ih h]
  | case5 n c d cs hend hbegin ih =>
    rw [List.cons_append, List.cons_append, closeNested, if_neg hend, if_pos hbegin, ih h]
  | case6 n c d cs hend hbegin ih =>
    rw [List.cons_append, List.cons_append, closeNested, if_neg hend, if_neg hbegin]
    exact ih h

/-- The first closing mark is the one behind the body, if the body does not hold it. -/
theorem afterFirst_append {close : List Char} (hne : close ≠ []) (rest : List Char) : ∀ {body : List Char},
    ¬ close <:+: (body ++ close).dropLast → afterFirst close (body ++ (close ++ rest)) = rest
  | [], _ => by
    obtain ⟨c, cs, rfl⟩ := List.exists_cons_of_ne_nil hne
    rw [List.nil_append, List.cons_append, afterFirst, if_pos ⟨rest, rfl⟩, ← List.cons_append, List.drop_left]
  | c :: body, h => by
    have hlast : ((c :: body) ++ close).dropLast = c :: (body ++ close).dropLast := by
      rw [List.cons_append, List.dropLast_cons_of_ne_nil (by simp [hne])]
    rw [hlast] at h
    rw [List.cons_append, afterFirst, if_neg]
    · exact afterFirst_append hne rest fun hin => h (hin.trans (List.suffix_cons c _).isInfix)
    · rintro hsub
      apply h
      -- the first place lies before the last character of the closing mark
      have hlength : close.length ≤ (c :: (body ++ close).dropLast).length := by
        rw [← hlast, List.length_dropLast, List.length_append, List.length_cons]
        omega
      have hsplit : c :: (body ++ (close ++ rest)) =
          (c :: (body ++ close).dropLast) ++ ((close.drop (close.length - 1)) ++ rest) := by
        have hdrop : (body ++ close).dropLast = body ++ close.dropLast := List.dropLast_append_of_ne_nil hne
        have hclose : close.dropLast ++ close.drop (close.length - 1) = close := by
          rw [List.dropLast_eq_take, List.take_append_drop]
        rw [hdrop, List.cons_append, List.append_assoc, ← List.append_assoc close.dropLast, hclose]
      rw [hsplit] at hsub
      exact (List.prefix_of_prefix_length_le hsub (List.prefix_append _ _) hlength).isInfix

/-- A string ends behind its pieces, none of which ends it. -/
theorem stringEnd?_pieces (rest : List Char) : ∀ {pieces : List LiteralPiece},
    (∀ piece ∈ pieces, piece.WellFormed) →
      stringEnd? (pieces.flatMap LiteralPiece.text ++ '"' :: rest) = some rest
  | [], _ => by cases rest <;> simp [stringEnd?]
  | piece :: pieces, h => by
    have ih := stringEnd?_pieces rest fun p hp => h p (List.mem_cons_of_mem piece hp)
    rw [List.flatMap_cons, List.append_assoc]
    cases piece with
    | plain c =>
      obtain ⟨hquote, hslash⟩ := h (.plain c) List.mem_cons_self
      obtain ⟨d, cs, hcons⟩ := List.exists_cons_of_ne_nil
        (show pieces.flatMap LiteralPiece.text ++ '"' :: rest ≠ [] by simp)
      rw [hcons] at ih ⊢
      rw [LiteralPiece.text, List.singleton_append, stringEnd?, if_neg hquote, if_neg hslash]
      exact ih
    | escape c =>
      rw [LiteralPiece.text, List.cons_append, List.singleton_append, stringEnd?, if_neg (by decide), if_pos rfl]
      exact ih

/-- A literal of one character ends at the quotation mark. -/
theorem untilApostrophe_append (rest : List Char) : ∀ {text : List Char},
    (∀ c ∈ text, c ≠ '\'' ∧ c ≠ '\\' ∧ c ≠ '\n') → untilApostrophe (text ++ '\'' :: rest) = some rest
  | [], _ => rfl
  | c :: text, h => by
    obtain ⟨happ, -, hline⟩ := h c List.mem_cons_self
    rw [List.cons_append, untilApostrophe, if_neg happ, if_neg hline]
    exact untilApostrophe_append rest fun d hd => h d (List.mem_cons_of_mem c hd)

/-- Where no raw string starts, none is read. -/
theorem rawEnd?_eq_none {cs : List Char} (h : startsRaw cs = false) : rawEnd? cs = none := by
  unfold rawEnd?
  unfold startsRaw at h
  split
  · rfl
  · rename_i c body hdrop
    rw [hdrop] at h
    rw [if_neg]
    rintro rfl
    cases h

variable {chars : CharClass}

/-- **A literal is matched to its end.** -/
theorem quotedEnd?_literal {token : RustToken} (hliteral : isLiteral token = true)
    (hformed : token.WellFormed chars) (rest : List Char) : quotedEnd? (token.text ++ rest) = some rest := by
  cases token with
  | str pieces =>
    rw [RustToken.text, List.cons_append, List.append_assoc, quotedEnd?, if_neg (by decide), if_pos rfl]
    exact stringEnd?_pieces rest hformed
  | rawStr hashes body =>
    have hhash : ∀ c ∈ hashMarks hashes, (decide (c = '#')) = true := fun c hc =>
      decide_eq_true (List.eq_of_mem_replicate hc)
    have hbody : hashMarks hashes ++ '"' :: (body ++ '"' :: hashMarks hashes) ++ rest =
        hashMarks hashes ++ '"' :: (body ++ (('"' :: hashMarks hashes) ++ rest)) := by simp
    rw [RustToken.text, List.cons_append, quotedEnd?, if_pos rfl, hbody, rawEnd?,
      List.dropWhile_append_of_pos hhash, List.takeWhile_append_of_pos hhash]
    have hquote : ('"' :: (body ++ (('"' :: hashMarks hashes) ++ rest))).takeWhile (fun c => decide (c = '#')) =
        [] := rfl
    rw [hquote, List.append_nil]
    show (if '"' = '"' then some _ else none) = _
    rw [if_pos rfl, afterFirst_append (List.cons_ne_nil _ _) rest hformed]
  | chr c =>
    obtain ⟨happ, hslash, hline⟩ := hformed
    show quotedEnd? ('\'' :: c :: '\'' :: rest) = _
    rw [quotedEnd?, if_neg (by decide), if_neg (by decide), if_pos rfl, characterEnd?, if_neg hslash,
      if_pos ⟨happ, hline, rfl⟩]
  | escaped c more =>
    obtain ⟨hline, hmore⟩ := hformed
    show quotedEnd? ('\'' :: '\\' :: c :: (more ++ ['\''] ++ rest)) = _
    rw [quotedEnd?, if_neg (by decide), if_neg (by decide), if_pos rfl, characterEnd?, if_pos rfl, if_neg hline,
      List.append_assoc]
    exact untilApostrophe_append rest hmore
  | code | lifetime | lineComment | blockComment => cases hliteral

/-- Nothing else is. -/
theorem quotedEnd?_eq_none {token : RustToken} {rest : List Char} (hliteral : isLiteral token = false)
    (hformed : token.WellFormed chars) (hfits : token.Fits chars rest) : quotedEnd? (token.text ++ rest) = none := by
  cases token with
  | code c =>
    obtain ⟨hquote, happ⟩ := hformed
    rw [RustToken.text, List.singleton_append, quotedEnd?]
    by_cases hr : c = 'r'
    · rw [if_pos hr]
      exact rawEnd?_eq_none (hfits.2 hr)
    · rw [if_neg hr, if_neg hquote, if_neg happ]
  | lifetime name =>
    obtain ⟨hne, hword, -⟩ := hformed
    obtain ⟨hrest, -⟩ := hfits
    obtain ⟨c, name, rfl⟩ := List.exists_cons_of_ne_nil hne
    have hneq : ∀ d : Char, d.toNat < 128 → (d.isAlphanum || d == '_') = false → ∀ e, chars.word e = true →
        e ≠ d := by
      rintro d hd hnot e he rfl
      rw [chars.word_ascii e hd, hnot] at he
      cases he
    have hc := hword c List.mem_cons_self
    rw [RustToken.text, List.cons_append, List.cons_append, quotedEnd?, if_neg (by decide), if_neg (by decide),
      if_pos rfl]
    cases hnext : name ++ rest with
    | nil => rfl
    | cons d cs =>
      have hd : d ≠ '\'' := by
        cases name with
        | nil =>
          rintro rfl
          rw [List.nil_append] at hnext
          rw [hnext] at hrest
          exact hrest rfl
        | cons e name =>
          obtain ⟨rfl, -⟩ := List.cons.inj hnext
          exact hneq '\'' (by decide) (by decide) e (hword e (by simp))
      rw [characterEnd?, if_neg (hneq '\\' (by decide) (by decide) c hc), if_neg fun h => hd h.2.2]
  | lineComment | blockComment => rfl
  | str | rawStr | chr | escaped => cases hliteral

/-! ## Blanking -/

namespace Library.RustToken

/-- No quotation mark stands directly after a lifetime; with an `r` before it, it would begin a raw string. -/
def Apart (rest : List Char) : RustToken → Prop
  | .lifetime _ => startsRaw rest = false
  | _ => True

variable (chars) in
/-- **The tokens are those of their text**, for the pattern too. -/
def BlankSafe : List RustToken → Prop
  | [] => True
  | token :: tokens =>
    token.WellFormed chars ∧ token.Fits chars (textOf tokens) ∧ token.Apart (textOf tokens) ∧ BlankSafe tokens

instance (rest : List Char) : ∀ token : RustToken, Decidable (token.Apart rest)
  | .lifetime _ => inferInstanceAs (Decidable (startsRaw rest = false))
  | .code _ | .str _ | .rawStr _ _ | .chr _ | .escaped _ _ | .lineComment _ | .blockComment _ => .isTrue trivial

instance decidableBlankSafe : ∀ tokens : List RustToken, Decidable (BlankSafe chars tokens)
  | [] => .isTrue trivial
  | token :: tokens =>
    have := decidableBlankSafe tokens
    inferInstanceAs (Decidable (token.WellFormed chars ∧ token.Fits chars (textOf tokens) ∧
      token.Apart (textOf tokens) ∧ BlankSafe chars tokens))

end Library.RustToken

/-- A character of a word is none of the marks of ASCII. -/
theorem word_ne {c d : Char} (hword : chars.word c = true) (hascii : d.toNat < 128)
    (hd : (d.isAlphanum || d == '_') = false) : c ≠ d := by
  rintro rfl
  rw [chars.word_ascii c hascii, hd] at hword
  cases hword

/-- Where letters begin no raw string with what follows them, they begin no literal. -/
theorem quotedEnd?_letters {rest : List Char} : ∀ {letters : List Char}, letters ≠ [] →
    (∀ c ∈ letters, chars.word c = true) → (letters.getLast? = some 'r' → startsRaw rest = false) →
      quotedEnd? (letters ++ rest) = none
  | c :: letters, _, hword, hraw => by
    have hne : ∀ {e d}, e ∈ c :: letters → d.toNat < 128 → (d.isAlphanum || d == '_') = false → e ≠ d := fun he =>
      word_ne (hword _ he)
    rw [List.cons_append, quotedEnd?, if_neg (hne List.mem_cons_self (by decide) (by decide) : c ≠ '"'),
      if_neg (hne List.mem_cons_self (by decide) (by decide) : c ≠ '\'')]
    split
    · rename_i hr
      apply rawEnd?_eq_none
      cases letters with
      | nil => exact hraw (congrArg some hr)
      | cons d letters =>
        have hhash : d ≠ '#' := hne (by simp) (by decide) (by decide)
        have hquote : d ≠ '"' := hne (by simp) (by decide) (by decide)
        simp [startsRaw, hhash, hquote]
    · rfl

/-- **Within letters nothing is matched**, if the last one is the prefix of nothing behind them. -/
theorem literalEnd?_letters {letters rest : List Char} (hword : ∀ c ∈ letters, chars.word c = true)
    (hraw : letters.getLast? = some 'r' → startsRaw rest = false)
    (hbyte : letters.getLast? = some 'b' → quotedEnd? rest = none)
    {front back : List Char} (hletters : letters = front ++ back) (hback : back ≠ []) :
    literalEnd? (back ++ rest) = none := by
  obtain ⟨c, back, rfl⟩ := List.exists_cons_of_ne_nil hback
  subst hletters
  rw [List.getLast?_append_of_ne_nil _ hback] at hraw hbyte
  have hback : ∀ d ∈ c :: back, chars.word d = true := fun d hd => hword d (List.mem_append_right front hd)
  have hslash : c ≠ '/' := word_ne (hback c List.mem_cons_self) (by decide) (by decide)
  rw [List.cons_append, literalEnd?, if_neg hslash]
  split
  · rename_i hb
    cases back with
    | nil => exact hbyte (congrArg some hb)
    | cons d back =>
      apply quotedEnd?_letters (List.cons_ne_nil d back) fun e he => hback e (List.mem_cons_of_mem c he)
      intro hlast
      exact hraw (by rw [← hlast]; exact List.getLast?_cons_cons)
  · exact quotedEnd?_letters (List.cons_ne_nil c back) hback hraw

/-- Where no literal follows it, a lifetime has nothing that is matched. -/
theorem literalEnd?_word {name rest : List Char} (hword : ∀ c ∈ name, chars.word c = true)
    (hrest : rest.head? ≠ some '\'' ∧ rest.head?.any chars.word = false) (hraw : startsRaw rest = false)
    {front back : List Char} (hname : name = front ++ back) (hback : back ≠ []) :
    literalEnd? (back ++ rest) = none := by
  refine literalEnd?_letters hword (fun _ => hraw) (fun _ => ?_) hname hback
  cases rest with
  | nil => rfl
  | cons d rest =>
    have hd : d ≠ 'r' := by
      rintro rfl
      have : chars.word 'r' = true := chars.word_ascii 'r' (by decide)
      rw [List.head?_cons, Option.any_some, this] at hrest
      exact absurd hrest.2 (by decide)
    have hquote : d ≠ '"' := by
      rintro rfl
      exact absurd hraw (by simp [startsRaw])
    have happ : d ≠ '\'' := fun h => hrest.1 (congrArg some h)
    rw [quotedEnd?, if_neg hd, if_neg hquote, if_neg happ]

/-- Apart from comments and byte literals everything begins with what is quoted. -/
theorem literalEnd?_quoted {c : Char} {cs : List Char} (hslash : c ≠ '/') (hb : c ≠ 'b') :
    literalEnd? (c :: cs) = quotedEnd? (c :: cs) := by
  rw [literalEnd?, if_neg hslash, if_neg hb]

/-- **A token without a prefix is matched, or nothing is matched in it.** -/
theorem literalEnd?_token {token : RustToken} {rest : List Char} (hformed : token.WellFormed chars)
    (hfits : token.Fits chars rest) (hapart : token.Apart rest)
    (hsub : token = .code 'b' → quotedEnd? rest = none) :
    if isBlanked (false, token) = true then
      token.text ≠ [] ∧ literalEnd? (token.text ++ rest) = some rest
    else ∀ front back, token.text = front ++ back → back ≠ [] → literalEnd? (back ++ rest) = none := by
  have hliteral : ∀ {c cs}, token.text = c :: cs → c ≠ '/' → c ≠ 'b' → isLiteral token = true →
      token.text ≠ [] ∧ literalEnd? (token.text ++ rest) = some rest := by
    intro c cs htext hslash hb hliteral
    refine ⟨htext ▸ List.cons_ne_nil c cs, ?_⟩
    rw [htext, List.cons_append, literalEnd?_quoted hslash hb, ← List.cons_append, ← htext]
    exact quotedEnd?_literal hliteral hformed rest
  cases token with
  | code c =>
    rintro front back htext hback
    obtain ⟨rfl, rfl⟩ : front = [] ∧ back = [c] := by
      cases front with
      | nil => exact ⟨rfl, htext.symm⟩
      | cons d front =>
        have hnil := (List.cons.inj htext).2
        exact absurd (List.append_eq_nil_iff.mp hnil.symm).2 hback
    rw [List.singleton_append, literalEnd?]
    by_cases hslash : c = '/'
    · obtain ⟨hline, hblock⟩ := hfits.1 hslash
      rw [if_pos hslash, if_neg hline, if_neg hblock]
    rw [if_neg hslash]
    by_cases hb : c = 'b'
    · rw [if_pos hb]
      exact hsub (by rw [hb])
    · rw [if_neg hb]
      show quotedEnd? ((RustToken.code c).text ++ rest) = none
      exact quotedEnd?_eq_none rfl hformed hfits
  | lifetime name =>
    rintro front back htext hback
    cases front with
    | nil =>
      obtain rfl : '\'' :: name = back := htext
      rw [List.cons_append, literalEnd?_quoted (by decide) (by decide)]
      show quotedEnd? ((RustToken.lifetime name).text ++ rest) = none
      exact quotedEnd?_eq_none rfl hformed hfits
    | cons d front => exact literalEnd?_word hformed.2.1 hfits hapart (List.cons.inj htext).2 hback
  | str | rawStr | chr | escaped => exact hliteral rfl (by decide) (by decide) rfl
  | lineComment body =>
    refine ⟨List.cons_ne_nil _ _, ?_⟩
    show some ((body ++ rest).dropWhile fun c => decide (c ≠ '\n')) = some rest
    have hbody : ∀ c ∈ body, decide (c ≠ '\n') = true := fun c hc => decide_eq_true fun h => hformed (h ▸ hc)
    rw [List.dropWhile_append_of_pos hbody]
    cases rest with
    | nil => rfl
    | cons d rest =>
      rcases hfits with h | h
      · cases h
      · rw [Option.some.inj h]
        rfl
  | blockComment tail =>
    refine ⟨List.cons_ne_nil _ _, ?_⟩
    show some (closeNested 1 (tail ++ rest)) = some rest
    rw [closeNested_tail rest 1 tail hformed]

/-- A row of tokens that is safe to blank separates its literals: the matches are the tokens that
are blanked, and nothing else. -/
theorem separates_pieces {tokens : List RustToken} (h : BlankSafe chars tokens) :
    Separates literalEnd? pieceText isBlanked (pieces tokens) := by
  fun_induction pieces tokens with
  | case1 => trivial
  | case2 token =>
    obtain ⟨hformed, hfits, hapart, -⟩ := h
    exact ⟨literalEnd?_token hformed hfits hapart fun _ => rfl, trivial⟩
  | case3 token next tokens hbyte ih =>
    obtain ⟨rfl, hliteral⟩ := hbyte
    obtain ⟨-, -, -, hformed, -, -, hrest⟩ := h
    have hblanked : isBlanked (true, next) = true := by
      cases next <;> first | rfl | cases hliteral
    refine ⟨?_, ih hrest⟩
    rw [if_pos hblanked, pieces_text]
    exact ⟨List.cons_ne_nil _ _, quotedEnd?_literal hliteral hformed _⟩
  | case4 token next tokens hbyte ih =>
    obtain ⟨hformed, hfits, hapart, hrest⟩ := h
    refine ⟨?_, ih hrest⟩
    rw [pieces_text]
    refine literalEnd?_token hformed hfits hapart fun hb => ?_
    obtain ⟨hnext, hfitsNext, -⟩ := hrest
    rw [textOf_cons]
    exact quotedEnd?_eq_none (Bool.eq_false_iff.mpr fun hl => hbyte ⟨hb, hl⟩) hnext hfitsNext

/-- **Blanking leaves the code of a text.** -/
theorem blank_textOf {tokens : List RustToken} (h : BlankSafe chars tokens) :
    blank (textOf tokens) = blankedOf tokens := by
  rw [blank, ← pieces_text tokens]
  exact replaceAll_flatMap (separates_pieces h) le_rfl

/-- Blanking keeps the length. -/
theorem length_blankedOf (tokens : List RustToken) : (blankedOf tokens).length = (textOf tokens).length := by
  rw [← pieces_text tokens, blankedOf, List.length_flatMap, List.length_flatMap]
  congr 2
  funext piece
  split <;> simp [blanks]

/-- A text is taken apart at a character that no byte prefix is. -/
theorem pieces_append_code {c : Char} (hc : c ≠ 'b') (tokens' tokens : List RustToken) :
    pieces (tokens ++ .code c :: tokens') = pieces tokens ++ (false, .code c) :: pieces tokens' := by
  have hcode : pieces (.code c :: tokens') = (false, .code c) :: pieces tokens' := by
    cases tokens' with
    | nil => rfl
    | cons next tokens' => rw [pieces, if_neg fun h => hc (RustToken.code.inj h.1)]
  fun_induction pieces tokens with
  | case1 => exact hcode
  | case2 token =>
    rw [List.singleton_append, pieces, if_neg fun h => Bool.false_ne_true h.2, hcode]
    rfl
  | case3 token next tokens hbyte ih =>
    rw [List.cons_append, List.cons_append, pieces, if_pos hbyte, ih, List.cons_append]
  | case4 token next tokens hbyte ih =>
    rw [List.cons_append, List.cons_append, pieces, if_neg hbyte, ← List.cons_append, ih, List.cons_append]

/-- A character of code between two rows of tokens stays between what they are blanked to, unless it
could be the start of a byte literal. -/
theorem blankedOf_append_code {c : Char} (hc : c ≠ 'b') (tokens tokens' : List RustToken) :
    blankedOf (tokens ++ .code c :: tokens') = blankedOf tokens ++ c :: blankedOf tokens' := by
  rw [blankedOf, pieces_append_code hc, List.flatMap_append, List.flatMap_cons]
  rfl

/-- A token that is no byte prefix stands by itself. -/
theorem blankedOf_cons {token : RustToken} {tokens : List RustToken}
    (h : ∀ next, tokens.head? = some next → ¬ (token = .code 'b' ∧ isLiteral next = true)) :
    blankedOf (token :: tokens) = blankedOf [token] ++ blankedOf tokens := by
  cases tokens with
  | nil => simp [blankedOf, pieces]
  | cons next tokens =>
    rw [blankedOf, pieces, if_neg (h next rfl), List.flatMap_cons]
    simp [blankedOf, pieces]

/-- Blanks are blanks and line breaks. -/
theorem mem_blanks {c : Char} {text : List Char} (h : c ∈ blanks text) : c = ' ' ∨ c = '\n' := by
  obtain ⟨d, -, hd⟩ := List.mem_map.mp h
  split at hd
  · rename_i hline
    exact .inr (hd ▸ hline)
  · exact .inl hd.symm

/-- What is behind a part that has not the character. -/
theorem split_after {part rest front back : List Char} {c : Char} (hc : c ∉ part)
    (h : part ++ rest = front ++ c :: back) : ∃ front', front = part ++ front' ∧ rest = front' ++ c :: back := by
  rcases List.append_eq_append_iff.mp h with ⟨middle, rfl, hrest⟩ | ⟨middle, rfl, hmiddle⟩
  · exact ⟨middle, rfl, hrest⟩
  · cases middle with
    | nil => exact ⟨[], by simp, hmiddle.symm⟩
    | cons d middle =>
      obtain ⟨rfl, -⟩ := List.cons.inj hmiddle
      exact absurd (by simp) hc

section

variable {c : Char} (hword : chars.word c = false) (happ : c ≠ '\'') (hspace : chars.space c = false)

include hspace in
/-- Blanks are blanks or line breaks. -/
theorem notMem_blanks (text : List Char) : c ∉ blanks text := by
  intro hmem
  rcases mem_blanks hmem with rfl | rfl
  · exact absurd hspace (by simp [chars.space_ascii ' ' (by decide)])
  · exact absurd hspace (by simp [chars.space_ascii '\n' (by decide)])

include hword happ hspace

/-- A mark that is no code of the token is not in what the token is blanked to. -/
theorem notMem_blankedOf {token : RustToken} (hformed : token.WellFormed chars) (hne : token ≠ .code c) :
    c ∉ blankedOf [token] := by
  have htext : blankedOf [token] = if isBlanked (false, token) = true then blanks (pieceText (false, token))
      else pieceText (false, token) := by simp [blankedOf, pieces]
  rw [htext]
  cases token with
  | code d => exact fun hmem => hne (congrArg _ (List.mem_singleton.mp hmem).symm)
  | lifetime name =>
    intro hmem
    rcases List.mem_cons.mp hmem with rfl | hmem
    · exact happ rfl
    · exact absurd (hformed.2.1 c hmem) (by simp [hword])
  | str | rawStr | chr | escaped | lineComment | blockComment => exact notMem_blanks hspace _

/-- **A character of the blanked text that is no word character is one of the code.** -/
theorem blankedOf_split : ∀ {tokens : List RustToken} {front back : List Char},
    (∀ token ∈ tokens, token.WellFormed chars) → blankedOf tokens = front ++ c :: back →
      ∃ tokens₁ tokens₂, tokens = tokens₁ ++ .code c :: tokens₂ ∧ blankedOf tokens₁ = front ∧
        blankedOf tokens₂ = back
  | [], front, back, _, h => by simp [blankedOf, pieces] at h
  | token :: tokens, front, back, hformed, h => by
    by_cases hbyte : ∃ next, tokens.head? = some next ∧ token = .code 'b' ∧ isLiteral next = true
    · -- a literal with its prefix
      obtain ⟨next, hnext, hbyte⟩ := hbyte
      obtain ⟨tokens, rfl⟩ : ∃ rest, tokens = next :: rest := by
        cases tokens with
        | nil => cases hnext
        | cons d tokens => exact ⟨tokens, by rw [Option.some.inj hnext]⟩
      have hunfold : ∀ rest, blankedOf (token :: next :: rest) =
          blanks (pieceText (true, next)) ++ blankedOf rest := by
        intro rest
        have hblanked : isBlanked (true, next) = true := by
          have := hbyte.2
          cases next <;> first | rfl | cases this
        rw [blankedOf, pieces, if_pos hbyte, List.flatMap_cons, if_pos hblanked]
        rfl
      rw [hunfold] at h
      obtain ⟨front', rfl, hrest⟩ := split_after (notMem_blanks hspace _) h
      obtain ⟨tokens₁, tokens₂, rfl, rfl, rfl⟩ := blankedOf_split (fun t ht => hformed t (by simp [ht])) hrest
      exact ⟨token :: next :: tokens₁, tokens₂, rfl, hunfold _, rfl⟩
    · have hplain : ∀ next, tokens.head? = some next → ¬ (token = .code 'b' ∧ isLiteral next = true) :=
        fun next hnext hb => hbyte ⟨next, hnext, hb⟩
      rw [blankedOf_cons hplain] at h
      by_cases hhere : token = .code c ∧ front = []
      · obtain ⟨rfl, rfl⟩ := hhere
        exact ⟨[], tokens, rfl, rfl, (List.cons.inj h).2⟩
      · obtain ⟨front', rfl, hrest⟩ : ∃ front', front = blankedOf [token] ++ front' ∧
            blankedOf tokens = front' ++ c :: back := by
          by_cases htoken : token = .code c
          · obtain ⟨d, front, rfl⟩ := List.exists_cons_of_ne_nil fun hnil => hhere ⟨htoken, hnil⟩
            subst htoken
            obtain ⟨rfl, hrest⟩ := List.cons.inj h
            exact ⟨front, rfl, hrest⟩
          · exact split_after (notMem_blankedOf hword happ hspace (hformed token List.mem_cons_self) htoken) h
        obtain ⟨tokens₁, tokens₂, hsplit, rfl, rfl⟩ :=
          blankedOf_split (fun t ht => hformed t (List.mem_cons_of_mem _ ht)) hrest
        refine ⟨token :: tokens₁, tokens₂, by rw [hsplit]; rfl, blankedOf_cons fun next hnext => ?_, rfl⟩
        apply hplain
        rw [hsplit, List.head?_append, hnext]
        rfl
termination_by tokens => tokens.length

end

/-- A text beside its blanked one. -/
def marked (tokens : List RustToken) : List (Char × Char) := (textOf tokens).zip (blankedOf tokens)

/-- The marked text read on the left is the text. -/
@[simp] theorem marked_fst (tokens : List RustToken) : (marked tokens).map Prod.fst = textOf tokens :=
  List.map_fst_zip (length_blankedOf tokens).ge

/-- Read on the right it is the blanked text. -/
@[simp] theorem marked_snd (tokens : List RustToken) : (marked tokens).map Prod.snd = blankedOf tokens :=
  List.map_snd_zip (length_blankedOf tokens).le

/-- A character of code is marked with itself. -/
theorem marked_append_code {c : Char} (hc : c ≠ 'b') (tokens tokens' : List RustToken) :
    marked (tokens ++ .code c :: tokens') = marked tokens ++ (c, c) :: marked tokens' := by
  rw [marked, blankedOf_append_code hc, textOf_append, textOf_cons,
    List.zip_append (length_blankedOf tokens).symm]
  rfl

/-- The blanked text stands beside the text character by character, as the tokens say. -/
theorem blank_zip {tokens : List RustToken} (h : BlankSafe chars tokens) :
    (textOf tokens).zip (blank (textOf tokens)) = marked tokens := by
  rw [blank_textOf h, marked]

/-! ## Texts one after the other -/

/-- A character that ends a head, a body or a declaration. -/
def IsMark (c : Char) : Prop := c ∈ ['\x7b', '\x7d', ';']

/-- A mark is no character of a word. -/
theorem IsMark.word {c : Char} (h : IsMark c) : chars.word c = false := by
  simp only [IsMark, List.mem_cons, List.not_mem_nil, or_false] at h
  rcases h with rfl | rfl | rfl <;> exact chars.word_ascii _ (by decide)

/-- A mark is no blank. -/
theorem IsMark.space {c : Char} (h : IsMark c) : chars.space c = false := by
  simp only [IsMark, List.mem_cons, List.not_mem_nil, or_false] at h
  rcases h with rfl | rfl | rfl <;> exact chars.space_ascii _ (by decide)

/-- A mark is one of three characters. -/
theorem IsMark.ne {c d : Char} (h : IsMark c) (hd : d ∉ ['\x7b', '\x7d', ';']) : c ≠ d := fun heq => hd (heq ▸ h)

/-- A mark ends a token, whatever comes after it. -/
theorem fits_mark {c c' : Char} (hc : IsMark c) (hc' : IsMark c') {token : RustToken} {rest : List Char}
    (more : List Char) (h : token.Fits chars (rest ++ [c'])) : token.Fits chars (rest ++ c :: more) := by
  cases token with
  | code d =>
    obtain ⟨hslash, hraw⟩ := h
    refine ⟨fun hd => ?_, fun hd => ?_⟩
    · cases rest with
      | nil => exact ⟨by simp [hc.ne (d := '/') (by decide)], by simp [hc.ne (d := '*') (by decide)]⟩
      | cons e rest => exact hslash hd
    · have := hraw hd
      rw [startsRaw_append (hc'.ne (by decide)) (hc'.ne (by decide))] at this
      rw [startsRaw_append (hc.ne (by decide)) (hc.ne (by decide)), this]
  | lifetime name =>
    cases rest with
    | nil => exact ⟨by simp [hc.ne (d := '\'') (by decide)], by simp [hc.word]⟩
    | cons e rest => exact h
  | lineComment body =>
    cases rest with
    | nil =>
      rcases h with h | h
      · cases h
      · exact absurd (Option.some.inj h) (hc'.ne (by decide))
    | cons e rest =>
      rcases h with h | h
      · cases h
      · exact .inr h
  | str | rawStr | chr | escaped | blockComment => trivial

/-- Whether a token stands apart from what follows is the same before every mark. -/
theorem apart_mark {c c' : Char} (hc : IsMark c) (hc' : IsMark c') {token : RustToken} {rest : List Char}
    (more : List Char) (h : token.Apart (rest ++ [c'])) : token.Apart (rest ++ c :: more) := by
  cases token with
  | lifetime name =>
    have hraw : startsRaw (rest ++ [c']) = false := h
    rw [startsRaw_append (hc'.ne (by decide)) (hc'.ne (by decide))] at hraw
    show startsRaw (rest ++ c :: more) = false
    rw [startsRaw_append (hc.ne (by decide)) (hc.ne (by decide)), hraw]
  | code | str | rawStr | chr | escaped | lineComment | blockComment => trivial

/-- **Texts are lexed apart at a mark.** -/
theorem blankSafe_mark {c c' : Char} (hc : IsMark c) (hc' : IsMark c') {tokens' : List RustToken}
    (h' : BlankSafe chars tokens') : ∀ {tokens : List RustToken}, BlankSafe chars (tokens ++ [.code c']) →
      BlankSafe chars (tokens ++ .code c :: tokens')
  | [], _ =>
    ⟨⟨hc.ne (by decide), hc.ne (by decide)⟩, ⟨fun h => absurd h (hc.ne (by decide)),
      fun h => absurd h (hc.ne (by decide))⟩, trivial, h'⟩
  | token :: tokens, ⟨hformed, hfits, hapart, hrest⟩ => by
    have hfits : token.Fits chars (textOf (tokens ++ [.code c'])) := hfits
    have hapart : token.Apart (textOf (tokens ++ [.code c'])) := hapart
    rw [textOf_append] at hfits hapart
    refine ⟨hformed, ?_, ?_, blankSafe_mark hc hc' h' hrest⟩
    · show token.Fits chars (textOf (tokens ++ .code c :: tokens'))
      rw [textOf_append]
      exact fits_mark hc hc' _ hfits
    · show token.Apart (textOf (tokens ++ .code c :: tokens'))
      rw [textOf_append]
      exact apart_mark hc hc' _ hapart

/-- The tail of a row of tokens is as safe to blank. -/
theorem blankSafe_of_append : ∀ {tokens tokens' : List RustToken}, BlankSafe chars (tokens ++ tokens') →
    BlankSafe chars tokens'
  | [], _, h => h
  | _ :: _, _, h => blankSafe_of_append h.2.2.2

/-- In a row that is safe to blank every token is well formed. -/
theorem wellFormed_of_blankSafe : ∀ {tokens : List RustToken}, BlankSafe chars tokens →
    ∀ token ∈ tokens, token.WellFormed chars
  | token :: tokens, h, t, ht => by
    rcases List.mem_cons.mp ht with rfl | ht
    · exact h.1
    · exact wellFormed_of_blankSafe h.2.2.2 t ht

end Assure
