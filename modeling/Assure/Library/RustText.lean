import Assure.Library.Nesting
import Assure.Library.Regex
import Mathlib.Data.List.Basic

/-!
# Rust texts

A Rust text is a row of tokens, as far as it matters where code is and where it is not: literals, lifetimes,
comments and single characters of code. Block comments nest. `WellLexed` says that the tokens are those that
Rust reads in their text, so a token ends where it has to and none begins before.

`trueDepths` counts the braces of the code.
-/

namespace Assure.Library

/-- A piece of a string: a character, or one behind a backslash. -/
inductive LiteralPiece
  | plain (c : Char)
  | escape (c : Char)
  deriving DecidableEq

/-- **A token**; `escaped` is a character literal with a backslash, and `blockComment` has what follows its
opening. -/
inductive RustToken
  | code (c : Char)
  | str (pieces : List LiteralPiece)
  | rawStr (hashes : Nat) (body : List Char)
  | chr (c : Char)
  | escaped (c : Char) (more : List Char)
  | lifetime (name : List Char)
  | lineComment (body : List Char)
  | blockComment (tail : List Char)
  deriving DecidableEq

/-- The text of a piece. -/
def LiteralPiece.text : LiteralPiece → List Char
  | .plain c => [c]
  | .escape c => ['\\', c]

/-- A character of a string that is no backslash and no quote. -/
def LiteralPiece.WellFormed : LiteralPiece → Prop
  | .plain c => c ≠ '"' ∧ c ≠ '\\'
  | .escape _ => True

instance (piece : LiteralPiece) : Decidable piece.WellFormed := by
  cases piece <;> unfold LiteralPiece.WellFormed <;> infer_instance

/-- `#…#` -/
def hashMarks (n : Nat) : List Char := List.replicate n '#'

namespace RustToken

/-- **The text of a token.** -/
def text : RustToken → List Char
  | .code c => [c]
  | .str pieces => '"' :: (pieces.flatMap LiteralPiece.text ++ ['"'])
  | .rawStr hashes body => 'r' :: (hashMarks hashes ++ '"' :: (body ++ '"' :: hashMarks hashes))
  | .chr c => ['\'', c, '\'']
  | .escaped c more => '\'' :: '\\' :: c :: (more ++ ['\''])
  | .lifetime name => '\'' :: name
  | .lineComment body => '/' :: '/' :: body
  | .blockComment tail => '/' :: '*' :: tail

/-- The text of a row of tokens. -/
def textOf (tokens : List RustToken) : List Char := tokens.flatMap text

/-- No tokens, no text. -/
@[simp] theorem textOf_nil : textOf [] = [] := rfl

/-- The text of the first token comes first. -/
@[simp] theorem textOf_cons (token : RustToken) (tokens : List RustToken) :
    textOf (token :: tokens) = token.text ++ textOf tokens := List.flatMap_cons

/-- The texts of two rows of tokens follow each other. -/
@[simp] theorem textOf_append (tokens tokens' : List RustToken) :
    textOf (tokens ++ tokens') = textOf tokens ++ textOf tokens' := List.flatMap_append

/-- No token is empty. -/
theorem text_ne_nil (token : RustToken) : token.text ≠ [] := by
  cases token <;> exact List.cons_ne_nil _ _

/-- Only the empty row has the empty text. -/
theorem eq_nil_of_textOf {tokens : List RustToken} (h : textOf tokens = []) : tokens = [] := by
  cases tokens with
  | nil => rfl
  | cons token tokens => exact absurd (List.append_eq_nil_iff.mp (textOf_cons token tokens ▸ h)).1 token.text_ne_nil

end RustToken

/-- Whether a text closes so many comments, the last one at its end. -/
def closesComments : Nat → List Char → Bool
  | 0, cs => cs.isEmpty
  | _ + 1, [] => false
  | _ + 1, [_] => false
  | n + 1, c :: d :: cs =>
    if c = '*' ∧ d = '/' then closesComments n cs
    else if c = '/' ∧ d = '*' then closesComments (n + 2) cs
    else closesComments (n + 1) (d :: cs)

/-- What follows `r` begins a raw string. -/
def startsRaw (rest : List Char) : Bool := (rest.dropWhile (· = '#')).head? = some '"'

namespace RustToken

variable (chars : CharClass)

/-- **A token is one by itself.** -/
def WellFormed : RustToken → Prop
  | .code c => c ≠ '"' ∧ c ≠ '\''
  | .str pieces => ∀ piece ∈ pieces, piece.WellFormed
  | .rawStr hashes body => ¬ ('"' :: hashMarks hashes) <:+: (body ++ '"' :: hashMarks hashes).dropLast
  | .chr c => c ≠ '\'' ∧ c ≠ '\\' ∧ c ≠ '\n'
  | .escaped c more => c ≠ '\n' ∧ ∀ d ∈ more, d ≠ '\'' ∧ d ≠ '\\' ∧ d ≠ '\n'
  | .lifetime name => name ≠ [] ∧ (∀ c ∈ name, chars.word c = true) ∧ name.head?.any chars.digit = false
  | .lineComment body => '\n' ∉ body
  | .blockComment tail => closesComments 1 tail = true

/-- **A token ends before the rest of the text.** -/
def Fits (rest : List Char) : RustToken → Prop
  | .code c => (c = '/' → rest.head? ≠ some '/' ∧ rest.head? ≠ some '*') ∧ (c = 'r' → startsRaw rest = false)
  | .lifetime _ => rest.head? ≠ some '\'' ∧ rest.head?.any chars.word = false
  | .lineComment _ => rest = [] ∨ rest.head? = some '\n'
  | _ => True

/-- **The tokens are those of their text.** -/
def WellLexed : List RustToken → Prop
  | [] => True
  | token :: tokens => token.WellFormed chars ∧ token.Fits chars (textOf tokens) ∧ WellLexed tokens

instance : ∀ token : RustToken, Decidable (token.WellFormed chars)
  | .code c => inferInstanceAs (Decidable (c ≠ '"' ∧ c ≠ '\''))
  | .str pieces => inferInstanceAs (Decidable (∀ piece ∈ pieces, piece.WellFormed))
  | .rawStr hashes body => inferInstanceAs (Decidable
      (¬ ('"' :: hashMarks hashes) <:+: (body ++ '"' :: hashMarks hashes).dropLast))
  | .chr c => inferInstanceAs (Decidable (c ≠ '\'' ∧ c ≠ '\\' ∧ c ≠ '\n'))
  | .escaped _ more =>
    -- the quantifiers range over the list, not over all characters
    have := List.decidableBAll (fun d => d ≠ '\'' ∧ d ≠ '\\' ∧ d ≠ '\n') more
    instDecidableAnd
  | .lifetime name =>
    have := List.decidableBAll (fun c => chars.word c = true) name
    instDecidableAnd
  | .lineComment body => inferInstanceAs (Decidable ('\n' ∉ body))
  | .blockComment tail => inferInstanceAs (Decidable (closesComments 1 tail = true))

instance (rest : List Char) (token : RustToken) : Decidable (token.Fits chars rest) := by
  cases token <;> unfold Fits <;> infer_instance

instance decidableWellLexed : ∀ tokens : List RustToken, Decidable (WellLexed chars tokens)
  | [] => .isTrue trivial
  | token :: tokens =>
    have := decidableWellLexed tokens
    inferInstanceAs (Decidable (token.WellFormed chars ∧ token.Fits chars (textOf tokens) ∧
      WellLexed chars tokens))

/-- The brace that a token is. -/
def braces : RustToken → Int
  | .code c => (if c = '\x7b' then 1 else 0) - (if c = '\x7d' then 1 else 0)
  | _ => 0

/-- **The depth in braces before each character and at the end**, from a depth on. -/
def trueDepths (depth : Int) : List RustToken → List Int
  | [] => [depth]
  | token :: tokens => List.replicate token.text.length depth ++ trueDepths (depth + token.braces) tokens

/-- The length of each token and its brace. -/
def rows (tokens : List RustToken) : List (Nat × Int) :=
  tokens.map fun token => (token.text.length, token.braces)

/-- The first token gives the first row. -/
@[simp] theorem rows_cons (token : RustToken) (tokens : List RustToken) :
    rows (token :: tokens) = (token.text.length, token.braces) :: rows tokens := rfl

/-- The rows of tokens follow each other. -/
@[simp] theorem rows_append (tokens tokens' : List RustToken) : rows (tokens ++ tokens') = rows tokens ++
    rows tokens' :=
  List.map_append

/-- Every row covers at least one character. -/
theorem rows_pos (tokens : List RustToken) : ∀ piece ∈ rows tokens, 0 < piece.1 := by
  intro piece hpiece
  obtain ⟨token, -, rfl⟩ := List.mem_map.mp hpiece
  cases token <;> exact Nat.succ_pos _

/-- The depths in a second row of tokens start from the depth behind the first. -/
theorem trueDepths_append (tokens tokens' : List RustToken) (depth : Int) : trueDepths depth (tokens ++ tokens') =
    depthsBefore depth (rows tokens) ++ trueDepths (depthAfter depth (rows tokens)) tokens' := by
  induction tokens generalizing depth with
  | nil => rfl
  | cons token tokens ih => exact (congrArg _ (ih _)).trans (List.append_assoc ..).symm

/-- There is one depth for each character of the text. -/
theorem depthsBefore_length (depth : Int) (tokens : List RustToken) :
    (depthsBefore depth (rows tokens)).length = (textOf tokens).length := by
  induction tokens generalizing depth with
  | nil => rfl
  | cons token tokens ih =>
    rw [rows_cons, depthsBefore, List.length_append, List.length_replicate, textOf_cons, List.length_append, ih]

/-! ## Texts one after the other -/

/-- **The code of a text**: a comment, a literal and a lifetime each stand as one blank. -/
def codeOnly (tokens : List RustToken) : List Char :=
  tokens.flatMap fun
    | .code c => [c]
    | _ => [' ']

/-- The code of two rows of tokens follows each other. -/
theorem codeOnly_append (tokens tokens' : List RustToken) :
    codeOnly (tokens ++ tokens') = codeOnly tokens ++ codeOnly tokens' := List.flatMap_append

variable {chars}

/-- Whether a raw string starts is decided before a character that is neither a hash nor a quotation
mark. -/
theorem startsRaw_append {c : Char} (hhash : c ≠ '#') (hquote : c ≠ '"') (more : List Char) :
    ∀ rest, startsRaw (rest ++ c :: more) = startsRaw rest
  | [] => by simp [startsRaw, hhash, hquote]
  | d :: rest => by
    have ih := startsRaw_append hhash hquote more rest
    by_cases hd : d = '#'
    · simpa [startsRaw, hd] using ih
    · simp [startsRaw, hd]

/-- A line break after the text ends no token differently. -/
theorem Fits.append_line {token : RustToken} {rest : List Char} (h : token.Fits chars rest)
    (more : List Char) : token.Fits chars (rest ++ '\n' :: more) := by
  have hbreak : chars.word '\n' = false := chars.word_ascii '\n' (by decide)
  cases token with
  | code c =>
    obtain ⟨hslash, hraw⟩ := h
    refine ⟨fun hc => ?_, fun hc => by rw [startsRaw_append (by decide) (by decide)]; exact hraw hc⟩
    cases rest with
    | nil => exact ⟨by simp, by simp⟩
    | cons d rest => exact hslash hc
  | lifetime name =>
    cases rest with
    | nil => exact ⟨by simp, by simpa using hbreak⟩
    | cons d rest => exact h
  | lineComment body =>
    rcases h with rfl | h
    · exact .inr rfl
    · cases rest with
      | nil => cases h
      | cons d rest => exact .inr h
  | str | rawStr | chr | escaped | blockComment => trivial

/-- **Two texts on lines of their own are lexed apart.** -/
theorem WellLexed.append_line {tokens' : List RustToken} (h' : WellLexed chars tokens') :
    ∀ {tokens : List RustToken}, WellLexed chars tokens → WellLexed chars (tokens ++ .code '\n' :: tokens')
  | [], _ => ⟨⟨by decide, by decide⟩, ⟨fun h => absurd h (by decide), fun h => absurd h (by decide)⟩, h'⟩
  | token :: tokens, ⟨hformed, hfits, hrest⟩ => by
    refine ⟨hformed, ?_, h'.append_line hrest⟩
    show token.Fits chars (textOf (tokens ++ .code '\n' :: tokens'))
    rw [textOf_append, textOf_cons]
    exact hfits.append_line _

/-- What fits before a text with a line break in it fits before the part up to the break. -/
theorem Fits.of_append_line {token : RustToken} {rest more : List Char}
    (h : token.Fits chars (rest ++ '\n' :: more)) : token.Fits chars rest := by
  cases token with
  | code c =>
    obtain ⟨hslash, hraw⟩ := h
    refine ⟨fun hc => ?_, fun hc => by rw [← hraw hc, startsRaw_append (by decide) (by decide)]⟩
    cases rest with
    | nil => exact ⟨by simp, by simp⟩
    | cons d rest => exact hslash hc
  | lifetime name =>
    cases rest with
    | nil => exact ⟨by simp, rfl⟩
    | cons d rest => exact h
  | lineComment body =>
    cases rest with
    | nil => exact .inl rfl
    | cons d rest =>
      rcases h with h | h
      · cases h
      · exact .inr h
  | str | rawStr | chr | escaped | blockComment => trivial

/-- Tokens on both sides of a line break are lexed on their own. -/
theorem WellLexed.of_append_line {tokens' : List RustToken} : ∀ {tokens : List RustToken},
    WellLexed chars (tokens ++ .code '\n' :: tokens') → WellLexed chars tokens ∧ WellLexed chars tokens'
  | [], ⟨_, _, h⟩ => ⟨trivial, h⟩
  | token :: tokens, ⟨hformed, hfits, hrest⟩ => by
    have hfits : token.Fits chars (textOf (tokens ++ .code '\n' :: tokens')) := hfits
    rw [textOf_append, textOf_cons] at hfits
    obtain ⟨hleft, hright⟩ := WellLexed.of_append_line hrest
    exact ⟨⟨hformed, hfits.of_append_line, hleft⟩, hright⟩

/-- **Braces are matched**, so many being open before. -/
def BracesNest (depth : Int) : List RustToken → Prop
  | [] => depth = 0
  | token :: tokens => 0 ≤ depth + token.braces ∧ BracesNest (depth + token.braces) tokens

instance decidableBracesNest : ∀ (depth : Int) (tokens : List RustToken), Decidable (BracesNest depth tokens)
  | depth, [] => inferInstanceAs (Decidable (depth = 0))
  | depth, token :: tokens =>
    have := decidableBracesNest (depth + token.braces) tokens
    inferInstanceAs (Decidable (0 ≤ depth + token.braces ∧ BracesNest (depth + token.braces) tokens))

/-- A text with matched braces can be taken out or put in. -/
theorem BracesNest.append_iff {tokens tokens' : List RustToken} {depth inner : Int} (hinner : BracesNest inner tokens)
    (hdepth : 0 ≤ depth) : BracesNest (depth + inner) (tokens ++ tokens') ↔ BracesNest depth tokens' := by
  induction tokens generalizing inner with
  | nil =>
    obtain rfl : inner = 0 := hinner
    rw [Int.add_zero, List.nil_append]
  | cons token tokens ih =>
    obtain ⟨hpos, hrest⟩ := hinner
    rw [List.cons_append, BracesNest, Int.add_assoc, ih hrest]
    exact and_iff_right (by omega)

/-- A text with no quote, no apostrophe and no slash is all code. -/
theorem eq_map_code {tokens : List RustToken} (h : ∀ c ∈ textOf tokens, c ≠ '"' ∧ c ≠ '\'' ∧ c ≠ '/') :
    tokens = (textOf tokens).map .code := by
  induction tokens with
  | nil => rfl
  | cons token tokens ih =>
    rw [textOf_cons] at h
    have hrest := ih fun c hc => h c (List.mem_append_right _ hc)
    have htoken : ∀ c ∈ token.text, c ≠ '"' ∧ c ≠ '\'' ∧ c ≠ '/' := fun c hc => h c (List.mem_append_left _ hc)
    cases token with
    | code c => rw [textOf_cons, text, List.singleton_append, List.map_cons, ← hrest]
    | str => exact absurd rfl (htoken '"' (by simp [text])).1
    | rawStr => exact absurd rfl (htoken '"' (by simp [text])).1
    | chr => exact absurd rfl (htoken '\'' (by simp [text])).2.1
    | escaped => exact absurd rfl (htoken '\'' (by simp [text])).2.1
    | lifetime => exact absurd rfl (htoken '\'' (by simp [text])).2.1
    | lineComment => exact absurd rfl (htoken '/' (by simp [text])).2.2
    | blockComment => exact absurd rfl (htoken '/' (by simp [text])).2.2

/-- Characters of code are their own text. -/
theorem textOf_map_code (text : List Char) : textOf (text.map .code) = text := by
  induction text with
  | nil => rfl
  | cons c text ih => exact congrArg (c :: ·) ih

/-- Characters of code are code. -/
theorem codeOnly_map_code (text : List Char) : codeOnly (text.map .code) = text := by
  induction text with
  | nil => rfl
  | cons c text ih => exact congrArg (c :: ·) ih

end RustToken

end Assure.Library
