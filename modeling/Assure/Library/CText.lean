import Assure.Library.RustText
import Assure.Library.Substitution

/-!
# Texts in C

A text in C as the tokens that matter when names are looked for: literals, comments and single characters of
code. `WellLexed` says that the tokens are those of their text, and `codeOf` is what the text comes to when
every comment is one blank and the literals are empty.
-/

namespace Assure.Library

/-- **A token of C**, as far as comments and literals go; the quotes of a literal and the marks of a comment
are not part of it. -/
inductive CToken
  | code (c : Char)
  | literal (quote : Char) (pieces : List LiteralPiece)
  | lineComment (body : List Char)
  | blockComment (body : List Char)
  deriving DecidableEq

namespace CToken

/-- **The text of a token.** -/
def text : CToken → List Char
  | .code c => [c]
  | .literal quote pieces => quote :: (pieces.flatMap LiteralPiece.text ++ [quote])
  | .lineComment body => '/' :: '/' :: body
  | .blockComment body => '/' :: '*' :: (body ++ ['*', '/'])

/-- The text of a row of tokens. -/
def textOf (tokens : List CToken) : List Char := tokens.flatMap text

/-- **The code of a text as C has it**: a comment is one blank, and literals are empty. -/
def blanked : CToken → List Char
  | .code c => [c]
  | .literal quote _ => [quote, quote]
  | .lineComment _ | .blockComment _ => [' ']

/-- The code of a row of tokens. -/
def codeOf (tokens : List CToken) : List Char := tokens.flatMap blanked

/-- **A token is one by itself.** -/
def WellFormed : CToken → Prop
  | .code c => c ≠ '"' ∧ c ≠ '\''
  | .literal quote pieces => (quote = '"' ∨ quote = '\'') ∧
    ∀ piece ∈ pieces, ∀ c, piece = .plain c → c ≠ quote ∧ c ≠ '\\' ∧ c ≠ '\n'
  | .lineComment body => '\n' ∉ body
  | .blockComment body => ¬ ['*', '/'] <:+: body ++ ['*']

/-- **A token ends before the rest of the text.** -/
def Fits (rest : List Char) : CToken → Prop
  | .code c => c = '/' → rest.head? ≠ some '/' ∧ rest.head? ≠ some '*'
  | .lineComment _ => rest = [] ∨ rest.head? = some '\n'
  | _ => True

/-- **The tokens are those of their text.** -/
def WellLexed : List CToken → Prop
  | [] => True
  | token :: tokens => token.WellFormed ∧ token.Fits (textOf tokens) ∧ WellLexed tokens

/-- The tail of a row of tokens is lexed as it was, since a token is judged by what follows it. -/
theorem WellLexed.of_append {rest : List CToken} : ∀ {tokens : List CToken},
    WellLexed (tokens ++ rest) → WellLexed rest
  | [], h => h
  | _ :: _, h => WellLexed.of_append h.2.2

/-- The tokens of a row are tokens by themselves. -/
theorem WellLexed.wellFormed : ∀ {tokens : List CToken}, WellLexed tokens → ∀ token ∈ tokens, token.WellFormed
  | _ :: _, ⟨hformed, _, hrest⟩, token, htoken => by
    rcases List.mem_cons.mp htoken with rfl | htoken
    · exact hformed
    · exact hrest.wellFormed token htoken

/-- Characters without quotes and slashes are tokens. -/
theorem wellLexed_map_code : ∀ {text : List Char},
    (text.all fun c => c != '"' && (c != '\'' && c != '/')) = true → WellLexed (text.map .code)
  | [], _ => trivial
  | c :: text, h => by
    rw [List.all_cons, Bool.and_eq_true, Bool.and_eq_true, Bool.and_eq_true, bne_iff_ne, bne_iff_ne, bne_iff_ne] at h
    obtain ⟨⟨hquote, happ, hslash⟩, htext⟩ := h
    exact ⟨⟨hquote, happ⟩, fun hc => absurd hc hslash, wellLexed_map_code htext⟩

/-- No tokens, no text. -/
@[simp] theorem textOf_nil : textOf [] = [] := rfl

/-- The text of the first token comes first. -/
@[simp] theorem textOf_cons (token : CToken) (tokens : List CToken) :
    textOf (token :: tokens) = token.text ++ textOf tokens := List.flatMap_cons

/-- The texts of two rows of tokens follow each other. -/
@[simp] theorem textOf_append (tokens tokens' : List CToken) :
    textOf (tokens ++ tokens') = textOf tokens ++ textOf tokens' := List.flatMap_append

/-- Characters of code are their own text. -/
@[simp] theorem textOf_map_code (text : List Char) : textOf (text.map .code) = text := by
  induction text with
  | nil => rfl
  | cons c text ih => exact congrArg (c :: ·) ih

/-- No token is empty. -/
theorem text_ne_nil (token : CToken) : token.text ≠ [] := by
  cases token <;> exact List.cons_ne_nil _ _

/-- Only the empty row has the empty text. -/
theorem eq_nil_of_textOf {tokens : List CToken} (h : textOf tokens = []) : tokens = [] := by
  cases tokens with
  | nil => rfl
  | cons token tokens => exact absurd (List.append_eq_nil_iff.mp (textOf_cons token tokens ▸ h)).1 token.text_ne_nil

/-- The brace that a token is. -/
def braces : CToken → Int
  | .code c => (if c = '\x7b' then 1 else 0) - (if c = '\x7d' then 1 else 0)
  | _ => 0

/-- The length of each token and its brace. -/
def rows (tokens : List CToken) : List (Nat × Int) :=
  tokens.map fun token => (token.text.length, token.braces)

/-- The first token gives the first row. -/
@[simp] theorem rows_cons (token : CToken) (tokens : List CToken) :
    rows (token :: tokens) = (token.text.length, token.braces) :: rows tokens := rfl

/-- The rows of tokens follow each other. -/
@[simp] theorem rows_append (tokens tokens' : List CToken) : rows (tokens ++ tokens') = rows tokens ++ rows tokens' :=
  List.map_append

/-- Every row covers at least one character. -/
theorem rows_pos (tokens : List CToken) : ∀ piece ∈ rows tokens, 0 < piece.1 := by
  intro piece hpiece
  obtain ⟨token, -, rfl⟩ := List.mem_map.mp hpiece
  cases token <;> exact Nat.succ_pos _

/-- **The depth in braces before each character and at the end.** -/
def trueDepths (tokens : List CToken) : List Int :=
  depthsBefore 0 (rows tokens) ++ [depthAfter 0 (rows tokens)]

/-- There is one depth for each character of the text. -/
theorem depthsBefore_length (depth : Int) (tokens : List CToken) :
    (depthsBefore depth (rows tokens)).length = (textOf tokens).length := by
  induction tokens generalizing depth with
  | nil => rfl
  | cons token tokens ih =>
    rw [rows_cons, depthsBefore, List.length_append, List.length_replicate, textOf_cons, List.length_append, ih]

/-- Without some of the tokens that begin with a slash the others are tokens still. -/
theorem WellLexed.filter {q : CToken → Bool} (hdrop : ∀ token, q token = false → token.text.head? = some '/') :
    ∀ {tokens : List CToken}, WellLexed tokens → WellLexed (tokens.filter q)
  | [], _ => trivial
  | token :: tokens, ⟨hformed, hfits, hrest⟩ => by
    have ih := WellLexed.filter hdrop hrest
    cases hq : q token with
    | false =>
      rw [List.filter_cons_of_neg (by rw [hq]; exact Bool.false_ne_true)]
      exact ih
    | true =>
      rw [List.filter_cons_of_pos hq]
      refine ⟨hformed, ?_, ih⟩
      have hhead : (textOf tokens).head? ≠ some '/' →
          (textOf (tokens.filter q)).head? = (textOf tokens).head? := by
        intro hslash
        cases tokens with
        | nil => rfl
        | cons next tokens =>
          have hne : next.text ≠ [] := by cases next <;> simp [CToken.text]
          have htext : (textOf (next :: tokens)).head? = next.text.head? := by
            rw [textOf, List.flatMap_cons, List.head?_append_of_ne_nil _ hne]
          cases hnext : q next with
          | false => exact absurd (htext.trans (hdrop next hnext)) hslash
          | true =>
            rw [List.filter_cons_of_pos hnext, htext, textOf, List.flatMap_cons,
              List.head?_append_of_ne_nil _ hne]
      cases token with
      | code c =>
        intro hc
        obtain ⟨hslash, hstar⟩ := hfits hc
        rw [hhead hslash]
        exact ⟨hslash, hstar⟩
      | lineComment body =>
        rcases hfits with hnil | hline
        · left
          have htokens : tokens = [] := by
            cases tokens with
            | nil => rfl
            | cons next tokens =>
              rw [textOf, List.flatMap_cons] at hnil
              have := (List.append_eq_nil_iff.mp hnil).1
              cases next <;> simp [CToken.text] at this
          rw [htokens]
          rfl
        · right
          rw [hhead (by rw [hline]; decide)]
          exact hline
      | literal => trivial
      | blockComment => trivial

end CToken

end Assure.Library
