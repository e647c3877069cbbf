import Assure.Library.Prototypes
import Assure.Pipeline.BlockEnd
import Assure.Pipeline.ForwardDeclarations

/-!
# The forward declarations that are removed

A snippet is a row of tokens of C, and what is to go are the prototypes of dependencies at its top level, whatever the
function takes them for (`InPrototype`). Removed exactly means of tokens: each token of such a prototype goes, each
other one stays, and no comment is cut in two (`RemovesExactly`).

That holds exactly where the prototypes stand alone (`StandAlone`): the name on the line where the prototype begins,
nothing but comments and other such prototypes before it on that line, and no other mention of a name that a semicolon
follows before a brace. `stripDependencyForwardDeclarations_exact` says so for every snippet that the scans read as C
does (`ReadAsC`). It does not say what becomes of a snippet in which a mention stands in a comment, or a bracket or a
quote in a comment behind the name of a prototype: there the scans lose their way.
-/

namespace Assure

open Assure.Library CToken

variable {chars : CharClass} {isalpha : Char → Bool}

/-! ## What the scans read -/

/-- A token in which `_findBalancedParenClose` sees what C does: it reads comments as code. -/
def Harmless : CToken → Prop
  | .code _ | .literal _ _ => True
  | .lineComment body | .blockComment body => ∀ c ∈ body, c ≠ '(' ∧ c ≠ ')' ∧ c ≠ '"' ∧ c ≠ '\''

/-- Characters that are neither brackets nor quotation marks do not matter to the search for the
closing bracket. -/
theorem afterParens_plain {depth : Nat} {tail : List Char} : ∀ {front : List Char} {fuel : Nat},
    (∀ c ∈ front, c ≠ '(' ∧ c ≠ ')' ∧ c ≠ '"' ∧ c ≠ '\'') →
      afterParens (fuel + front.length) depth (front ++ tail) = afterParens fuel depth tail
  | [], _, _ => rfl
  | c :: front, fuel, h => by
    obtain ⟨⟨hopen, hclose, hquote, happ⟩, hfront⟩ := List.forall_mem_cons.mp h
    rw [List.length_cons, ← Nat.add_assoc, List.cons_append, afterParens, if_neg hopen, if_neg hclose,
      if_neg (not_or.mpr ⟨hquote, happ⟩)]
    exact afterParens_plain hfront

/-- A harmless comment is passed over by the brackets. -/
theorem afterParens_comment {token : CToken} (hcomment : ∀ c ∈ token.text, c ≠ '(' ∧ c ≠ ')' ∧ c ≠ '"' ∧ c ≠ '\'')
    {depth fuel : Nat} {tail : List Char} (hfuel : (token.text ++ tail).length < fuel) :
    ∃ left, tail.length < left ∧ afterParens fuel depth (token.text ++ tail) = afterParens left depth tail := by
  rw [List.length_append] at hfuel
  refine ⟨fuel - token.text.length, by omega, ?_⟩
  have hsplit : fuel = fuel - token.text.length + token.text.length := by omega
  rw [hsplit, afterParens_plain hcomment, Nat.add_sub_cancel]

/-- Neither does a comment that is harmless. -/
theorem Harmless.text_apart {token : CToken} (h : Harmless token) (hcomment : token.text.head? = some '/')
    (hformed : token.WellFormed) (hcode : token ≠ .code '/') :
    ∀ c ∈ token.text, c ≠ '(' ∧ c ≠ ')' ∧ c ≠ '"' ∧ c ≠ '\'' := by
  have hmarks : ∀ c ∈ ['/', '*'], c ≠ '(' ∧ c ≠ ')' ∧ c ≠ '"' ∧ c ≠ '\'' := by simp
  cases token with
  | code c =>
    obtain rfl : c = '/' := Option.some.inj hcomment
    exact absurd rfl hcode
  | literal quote pieces =>
    obtain rfl : quote = '/' := Option.some.inj hcomment
    rcases hformed.1 with h | h <;> exact absurd h (by decide)
  | lineComment body =>
    intro c hc
    rw [CToken.text, List.mem_cons, List.mem_cons] at hc
    rcases hc with rfl | rfl | hc
    · exact hmarks '/' (by simp)
    · exact hmarks '/' (by simp)
    · exact h c hc
  | blockComment body =>
    intro c hc
    rw [CToken.text, List.mem_cons, List.mem_cons, List.mem_append] at hc
    rcases hc with rfl | rfl | hc | hc
    · exact hmarks '/' (by simp)
    · exact hmarks '*' (by simp)
    · exact h c hc
    · exact hmarks c (List.mem_reverse.mp (by simpa using hc))

/-- **The brackets are found**: behind matched brackets with so many open, the one that closes the last. -/
theorem afterParens_bracketed {allowed : Char → Bool} (more : List Char) :
    ∀ {tokens : List CToken} {depth fuel : Nat},
    Enclosed allowed (depth + 1) tokens → (∀ token ∈ tokens, Harmless token ∧ token.WellFormed) →
      (textOf tokens ++ more).length < fuel → ∃ outer, outer <:+ tokens ∧ outer.length < tokens.length ∧
        Enclosed allowed 0 outer ∧ afterParens fuel depth (textOf tokens ++ more) = some (textOf outer ++ more)
  | [], _, _, h, _, _ => absurd h (Nat.succ_ne_zero _)
  | token :: tokens, depth, fuel, h, hall, hfuel => by
    obtain ⟨⟨hharmless, hformed⟩, hall⟩ := List.forall_mem_cons.mp hall
    -- what is found further on
    have hfurther : ∀ {depth' fuel'}, Enclosed allowed (depth' + 1) tokens → (textOf tokens ++ more).length < fuel' →
        afterParens fuel depth (textOf (token :: tokens) ++ more) = afterParens fuel' depth' (textOf tokens ++ more) →
        ∃ outer, outer <:+ token :: tokens ∧ outer.length < (token :: tokens).length ∧ Enclosed allowed 0 outer ∧
          afterParens fuel depth (textOf (token :: tokens) ++ more) = some (textOf outer ++ more) := by
      intro depth' fuel' hrest hfuel' heq
      obtain ⟨outer, hsuffix, hlength, houter, hfound⟩ := afterParens_bracketed more hrest hall hfuel'
      exact ⟨outer, hsuffix.trans (List.suffix_cons _ _), hlength.trans (Nat.lt_succ_self _), houter, heq.trans hfound⟩
    rw [textOf_cons, List.append_assoc] at hfuel
    have hcomment : token.text.head? = some '/' → token ≠ .code '/' → Enclosed allowed (depth + 1) tokens →
        ∃ outer, outer <:+ token :: tokens ∧ outer.length < (token :: tokens).length ∧ Enclosed allowed 0 outer ∧
          afterParens fuel depth (textOf (token :: tokens) ++ more) = some (textOf outer ++ more) := by
      intro hhead hcode hrest
      obtain ⟨left, hleft, heq⟩ := afterParens_comment (hharmless.text_apart hhead hformed hcode) hfuel
      exact hfurther hrest hleft (by rw [textOf_cons, List.append_assoc]; exact heq)
    cases token with
    | code c =>
      obtain ⟨fuel, rfl⟩ : ∃ n, fuel = n + 1 := ⟨fuel - 1, by omega⟩
      have hfuel' : (textOf tokens ++ more).length < fuel := Nat.lt_of_succ_lt_succ hfuel
      have hstep : afterParens (fuel + 1) depth (textOf (.code c :: tokens) ++ more) =
          afterParens (fuel + 1) depth (c :: (textOf tokens ++ more)) := rfl
      rw [Enclosed] at h
      split at h
      · rename_i hopen
        exact hfurther h hfuel' (by rw [hstep, afterParens, if_pos hopen])
      · rename_i hopen
        split at h
        · rename_i hclose
          cases depth with
          | zero =>
            rw [hstep, afterParens, if_neg hopen, if_pos hclose]
            exact ⟨tokens, List.suffix_cons _ _, Nat.lt_succ_self _, h.2, if_pos rfl⟩
          | succ depth =>
            refine hfurther h.2 hfuel' ?_
            rw [hstep, afterParens, if_neg hopen, if_pos hclose, if_neg (Nat.succ_ne_zero _)]
            rfl
        · rename_i hclose
          refine hfurther h.2.2 hfuel' ?_
          rw [hstep, afterParens, if_neg hopen, if_neg hclose, if_neg (not_or.mpr hformed)]
    | literal quote pieces =>
      obtain ⟨fuel, rfl⟩ : ∃ n, fuel = n + 1 := ⟨fuel - 1, by omega⟩
      obtain ⟨hquote, hplain⟩ := hformed.pieces
      have htext : textOf (.literal quote pieces :: tokens) ++ more =
          quote :: (pieces.flatMap LiteralPiece.text ++ quote :: (textOf tokens ++ more)) := by
        simp [CToken.text]
      refine @hfurther depth fuel h.2 ?_ ?_
      · simp only [CToken.text, List.length_append, List.length_cons] at hfuel ⊢
        omega
      · have hbrackets : quote ≠ '(' ∧ quote ≠ ')' ∧ quote ≠ '\\' := by rcases hquote with rfl | rfl <;> decide
        rw [htext, afterParens, if_neg hbrackets.1, if_neg hbrackets.2.1, if_pos hquote,
          afterQuote_pieces hbrackets.2.2 _ hplain]
    | lineComment body => exact hcomment rfl (by simp) h
    | blockComment body => exact hcomment rfl (by simp) h

/-- A block comment ends behind its body. -/
theorem afterBlock?_body (rest : List Char) : ∀ {body : List Char}, ¬ ['*', '/'] <:+: body ++ ['*'] →
    afterBlock? (body ++ '*' :: '/' :: rest) = some rest
  | [], _ => by
    rw [List.nil_append, afterBlock?, if_pos ⟨rfl, rfl⟩]
    rfl
  | c :: body, h => by
    have hne : ¬ (c = '*' ∧ (body ++ '*' :: '/' :: rest).head? = some '/') := by
      rintro ⟨rfl, hhead⟩
      cases body with
      | nil => cases hhead
      | cons d body =>
        obtain rfl : d = '/' := Option.some.inj hhead
        exact h ⟨[], body ++ ['*'], rfl⟩
    rw [List.cons_append, afterBlock?, if_neg hne]
    exact afterBlock?_body rest fun hin => h (hin.trans (List.suffix_cons c _).isInfix)

/-- Behind a line comment, unless the text ends there, stands the line break that ends it, as a token of its own. -/
theorem exists_lineEnd {body : List Char} {tokens after : List CToken}
    (hlexed : WellLexed (.lineComment body :: (tokens ++ .code ';' :: after))) :
    ∃ tokens', tokens = .code '\n' :: tokens' := by
  obtain ⟨-, hfits, hlexed'⟩ := hlexed
  cases tokens with
  | nil =>
    rcases hfits with h | h
    · cases h
    · exact absurd (Option.some.inj h) (by decide)
  | cons next tokens =>
    have hhead : next.text.head? = some '\n' := by
      rcases hfits with h | h
      · exact absurd (eq_nil_of_textOf h) (List.cons_ne_nil _ _)
      · rw [List.cons_append, textOf_cons] at h
        rwa [List.head?_append_of_ne_nil _ next.text_ne_nil] at h
    -- only code and literals can begin with a line break, and no literal does
    cases next with
    | code c =>
      obtain rfl : c = '\n' := Option.some.inj hhead
      exact ⟨tokens, rfl⟩
    | literal quote pieces =>
      obtain rfl : quote = '\n' := Option.some.inj hhead
      rcases hlexed'.1.1 with h | h <;> exact absurd h (by decide)
    | lineComment body => cases hhead
    | blockComment body => cases hhead

/-- The scan passes over a line comment, with its line break. -/
theorem scanForDeclarationTerminator_lineComment {body : List Char} (hbody : '\n' ∉ body) (fuel : Nat)
    (rest : List Char) : scanForDeclarationTerminator (fuel + 1) ((CToken.lineComment body).text ++ '\n' :: rest) =
      scanForDeclarationTerminator fuel rest := by
  have hline : ('/' :: body ++ '\n' :: rest).dropWhile (· ≠ '\n') = '\n' :: rest :=
    dropWhile_line (List.not_mem_cons_of_ne_of_not_mem (by decide) hbody) (.inr rfl)
  rw [CToken.text, List.cons_append, scanForDeclarationTerminator, if_neg (by decide), if_neg (by decide),
    if_pos ⟨rfl, rfl⟩, hline]

/-- The scan passes over a block comment. -/
theorem scanForDeclarationTerminator_blockComment {body : List Char} (hbody : ¬ ['*', '/'] <:+: body ++ ['*'])
    (fuel : Nat) (rest : List Char) :
    scanForDeclarationTerminator (fuel + 1) ((CToken.blockComment body).text ++ rest) =
      scanForDeclarationTerminator fuel rest := by
  have htext : (CToken.blockComment body).text ++ rest = '/' :: '*' :: (body ++ '*' :: '/' :: rest) := by
    simp [CToken.text]
  rw [htext, scanForDeclarationTerminator, if_neg (by decide), if_neg (by decide), if_neg (by simp),
    if_pos ⟨rfl, rfl⟩, List.tail_cons, afterBlock?_body _ hbody, Option.bind_some]

/-- The scan passes over a character of a word and over a blank. -/
theorem scanForDeclarationTerminator_plain {c : Char} (hplain : (chars.word c || chars.space c) = true)
    (hopen : c ≠ '(') (hquote : c ≠ '"' ∧ c ≠ '\'') (hend : c ≠ ';' ∧ c ≠ '\x7b') (fuel : Nat) (rest : List Char) :
    scanForDeclarationTerminator (fuel + 1) (c :: rest) = scanForDeclarationTerminator fuel rest := by
  have hslash : c ≠ '/' := by
    rintro rfl
    rw [chars.word_ascii _ (by decide), chars.space_ascii _ (by decide)] at hplain
    exact absurd hplain (by decide)
  rw [scanForDeclarationTerminator, if_neg hopen, if_neg (not_or.mpr hquote), if_neg fun h => hslash h.1,
    if_neg fun h => hslash h.1, if_neg (not_or.mpr hend)]

/-- **The semicolon is found** behind matched brackets, words, blanks and comments. -/
theorem scanForDeclarationTerminator_bracketed {after : List CToken} (n : Nat) {tokens : List CToken} {fuel : Nat}
    (hn : tokens.length ≤ n) (h : Enclosed (fun c => chars.word c || chars.space c) 0 tokens)
    (hharmless : ∀ token ∈ tokens, Harmless token) (hlexed : WellLexed (tokens ++ .code ';' :: after))
    (hfuel : (textOf tokens ++ ';' :: textOf after).length < fuel) :
    scanForDeclarationTerminator fuel (textOf tokens ++ ';' :: textOf after) = some (';' :: textOf after) := by
  induction n generalizing tokens fuel with
  | zero =>
    obtain rfl := List.eq_nil_of_length_eq_zero (Nat.le_zero.mp hn)
    obtain ⟨fuel, rfl⟩ : ∃ n, fuel = n + 1 := ⟨fuel - 1, by omega⟩
    rw [textOf_nil, List.nil_append, scanForDeclarationTerminator]
    simp
  | succ n ih =>
    obtain ⟨fuel, rfl⟩ : ∃ n, fuel = n + 1 := ⟨fuel - 1, by omega⟩
    cases tokens with
    | nil =>
      rw [textOf_nil, List.nil_append, scanForDeclarationTerminator]
      simp
    | cons token tokens =>
      have hformed : token.WellFormed := hlexed.1
      have hlexed' : WellLexed (tokens ++ .code ';' :: after) := hlexed.2.2
      have hharmless' : ∀ token ∈ tokens, Harmless token := (List.forall_mem_cons.mp hharmless).2
      have hn' : tokens.length ≤ n := Nat.le_of_succ_le_succ hn
      have hlength := hfuel
      rw [textOf_cons, List.append_assoc, List.length_append] at hlength
      have hfuel' : (textOf tokens ++ ';' :: textOf after).length < fuel := by
        have := token.text_length_pos
        omega
      rw [textOf_cons, List.append_assoc]
      cases token with
      | code c =>
        rw [Enclosed] at h
        split at h
        · rename_i hopen
          have hall : ∀ token ∈ tokens, Harmless token ∧ token.WellFormed := fun token htoken =>
            ⟨hharmless' token htoken, WellLexed.wellFormed hlexed' token (List.mem_append_left _ htoken)⟩
          obtain ⟨outer, ⟨inner, hinner⟩, hlength, houter, hfound⟩ := afterParens_bracketed (';' :: textOf after) h
            hall (Nat.lt_succ_self _)
          rw [CToken.text, List.singleton_append, scanForDeclarationTerminator, if_pos hopen, hfound, Option.bind_some]
          refine ih (by omega) houter (fun token htoken => hharmless' token (hinner ▸ List.mem_append_right _ htoken))
            ?_ ?_
          · rw [← hinner, List.append_assoc] at hlexed'
            exact WellLexed.of_append hlexed'
          · refine Nat.lt_of_le_of_lt ?_ hfuel'
            rw [← hinner, textOf_append, List.append_assoc, @List.length_append _ (textOf inner)]
            exact Nat.le_add_left _ _
        · rename_i hopen
          split at h
          · exact absurd h.1 (Nat.lt_irrefl 0)
          · obtain ⟨⟨hsemicolon, hbrace, -⟩, hallowed, hrest⟩ := h
            rw [CToken.text, List.singleton_append, scanForDeclarationTerminator_plain
              (hallowed.resolve_left (Nat.lt_irrefl 0)) hopen hformed ⟨hsemicolon, hbrace⟩]
            exact ih hn' hrest hharmless' hlexed' hfuel'
      | literal quote pieces => exact absurd h.1 (Nat.lt_irrefl 0)
      | lineComment body =>
        obtain ⟨tokens, rfl⟩ := exists_lineEnd hlexed
        have hrest : Enclosed (fun c => chars.word c || chars.space c) 0 tokens := by
          rw [Enclosed, Enclosed, if_neg (by decide), if_neg (by decide)] at h
          exact h.2.2
        rw [textOf_cons, CToken.text, List.append_assoc, List.singleton_append]
        rw [scanForDeclarationTerminator_lineComment hformed]
        refine ih (Nat.le_of_succ_le hn') hrest (List.forall_mem_cons.mp hharmless').2 hlexed'.2.2 ?_
        rw [textOf_cons, List.append_assoc, List.length_append] at hfuel'
        omega
      | blockComment body =>
        rw [scanForDeclarationTerminator_blockComment hformed]
        exact ih hn' h hharmless' hlexed' hfuel'

/-- **The end of a prototype is found.** -/
theorem declarationEnd?_bracketed {rest after : List CToken}
    (h : Enclosed (fun c => chars.word c || chars.space c) 1 rest) (hharmless : ∀ token ∈ rest, Harmless token)
    (hlexed : WellLexed (rest ++ .code ';' :: after)) :
    declarationEnd? (textOf rest ++ ';' :: textOf after) = some (textOf after) := by
  obtain ⟨outer, ⟨inner, hinner⟩, -, houter, hfound⟩ := afterParens_bracketed (';' :: textOf after) h
    (fun token htoken => ⟨hharmless token htoken, WellLexed.wellFormed hlexed token (List.mem_append_left _ htoken)⟩)
    (Nat.lt_succ_self _)
  have hscan : scanForDeclarationTerminator ((textOf outer ++ ';' :: textOf after).length + 1)
      (textOf outer ++ ';' :: textOf after) = some (';' :: textOf after) := by
    refine scanForDeclarationTerminator_bracketed _ (Nat.le_refl _) houter
      (fun token htoken => hharmless token (hinner ▸ List.mem_append_right _ htoken)) ?_ (Nat.lt_succ_self _)
    rw [← hinner, List.append_assoc] at hlexed
    exact WellLexed.of_append hlexed
  rw [declarationEnd?, hfound, Option.bind_some, hscan]
  exact if_pos rfl

/-- **The depths are the true ones**, in C. -/
theorem computeBraceDepthAt_c {row : List CToken} (htaken : CToken.EachBefore (TakenRight isalpha) [] row)
    (hlexed : WellLexed row) : computeBraceDepthAt isalpha (String.ofList (textOf row)) = trueDepths row := by
  have hreads := readsTo_c htaken (by rw [List.append_nil]; exact hlexed)
  rw [computeBraceDepthAt, String.length_ofList, String.toList_ofList]
  obtain ⟨left, hleft, hdepths⟩ := hreads 0 _ (by rw [textOf_nil, List.append_nil]; exact Nat.lt_succ_self _)
  obtain ⟨left, rfl⟩ : ∃ n, left = n + 1 := ⟨left - 1, by rw [textOf_nil, List.length_nil] at hleft; omega⟩
  rw [textOf_nil, List.append_nil] at hdepths
  exact hdepths

/-- The depth at a place. -/
theorem trueDepths_place (front back : List CToken) :
    (trueDepths (front ++ back))[place front]? = some (depthAfter 0 (rows front)) := by
  have hhead := depthsBefore_head (depthAfter 0 (rows front)) (rows_pos back)
  rw [trueDepths, rows_append, depthsBefore_append, depthAfter_append, List.append_assoc,
    List.getElem?_append_right (by rw [CToken.depthsBefore_length]; exact Nat.le_refl _), CToken.depthsBefore_length,
    place, Nat.sub_self, ← List.head?_eq_getElem?]
  exact hhead

/-! ## The prototypes -/

variable (chars isalpha) in
/-- **A dependency's prototype** at the top level of a row. -/
structure Dependency (names : List (List Char)) (row before : List CToken) (p : Prototype) (after : List CToken) : Prop
    extends Prototype.TopLevel chars row before p after where
  named : p.name ∈ names

/-- The place is in a dependency's prototype. -/
def InPrototype (chars : CharClass) (names : List (List Char)) (row : List CToken) (i : Nat) : Prop :=
  ∃ before p after, Dependency chars names row before p after ∧ place before ≤ i ∧ i < place (before ++ p.tokens)

/-- What is left at a place. -/
def Stays (chars : CharClass) (isalpha : Char → Bool) (names : List (List Char)) (row : List CToken) (i : Nat) : Prop :=
  ∃ c, (c, i) ∈ keptPlaces chars isalpha names (textOf row)

section

variable (chars isalpha) (names : List (List Char)) (row : List CToken)

/-- **Removed are exactly the prototypes**: the tokens of dependencies' prototypes, and no other ones. A comment goes or
stays as a whole; of blanks nothing is asked. -/
structure RemovesExactly : Prop where
  tokens : ∀ front token back, row = front ++ token :: back → ¬ token.IsLayout chars →
    ∀ i, place front ≤ i → i < place front + token.text.length →
      (Stays chars isalpha names row i ↔ ¬ InPrototype chars names row i)
  comments : ∀ front token back, row = front ++ token :: back → token.IsLayout chars →
    (∀ i, place front ≤ i → i < place front + token.text.length → Stays chars isalpha names row i) ∨
      ∀ i, place front ≤ i → i < place front + token.text.length → ¬ Stays chars isalpha names row i

/-- **A snippet that the scans read as C does.** It is a row of tokens of C, no character constant looks like a label of
Rust, no line comment ends in a backslash, and the names are words. A mention that is taken for a declaration begins in
code, not in a comment or a literal. Between the name and the bracket of a dependency's prototype there is no comment,
in the comments behind it there are no brackets and quotes, and no other mention in it is taken for a declaration. -/
structure ReadAsC : Prop where
  lexed : WellLexed row
  taken : CToken.EachBefore (TakenRight isalpha) [] row
  words : ∀ name ∈ names, name ≠ [] ∧ ∀ c ∈ name, chars.word c = true
  mentions : ∀ start stop, Declares chars isalpha names (textOf row) start stop →
    ∃ front c back, row = front ++ .code c :: back ∧ place front = start
  gaps : ∀ before p after, Dependency chars names row before p after → ∀ token ∈ p.gap, ∃ c, token = .code c
  brackets : ∀ before p after, Dependency chars names row before p after → ∀ token ∈ p.rest, Harmless token
  single : ∀ before p after, Dependency chars names row before p after →
    ∀ start stop, Declares chars isalpha names (textOf row) start stop →
      place before ≤ start → start < place (before ++ p.tokens) → start = place (before ++ p.specifiers)

/-- **The prototypes stand alone.** No mention outside them is taken for a declaration, which is to say that no semicolon
comes behind it before a brace. The name of each prototype is on the line where the prototype begins; before it on that
line are only comments and other such prototypes, and no comment comes over from the line before. -/
structure StandAlone : Prop where
  others : ∀ start stop, Declares chars isalpha names (textOf row) start stop → InPrototype chars names row start
  firstLine : ∀ before p after, Dependency chars names row before p after → '\n' ∉ textOf p.specifiers
  before : ∀ before p after, Dependency chars names row before p after →
    ∀ front token back, row = front ++ token :: back → ¬ token.IsLayout chars → place front < place before →
      lineStart (textOf row) (place before) < place front + token.text.length →
        InPrototype chars names row (place front)
  comments : ∀ before p after, Dependency chars names row before p after →
    ∀ front token back, row = front ++ token :: back → token.IsLayout chars →
      ¬ InPrototype chars names row (place front) → place front < lineStart (textOf row) (place before) →
        place front + token.text.length ≤ lineStart (textOf row) (place before)

end

/-! ## The mention in a prototype -/

variable {names : List (List Char)} {row before after : List CToken} {p : Prototype}

/-- **A prototype is taken for a declaration** by the mention of its name. -/
theorem ReadAsC.declares (hread : ReadAsC chars isalpha names row) (h : Dependency chars names row before p after) :
    Declares chars isalpha names (textOf row) (place (before ++ p.specifiers)) (place (before ++ p.tokens)) := by
  have hgap : ∀ c ∈ textOf p.gap, chars.space c = true := by
    intro c hc
    obtain ⟨token, htoken, hc⟩ := List.mem_flatMap.mp hc
    obtain ⟨d, rfl⟩ := hread.gaps before p after h token htoken
    obtain rfl := List.mem_singleton.mp hc
    exact h.wellFormed.gap _ htoken
  have htext : textOf row = textOf (before ++ p.specifiers) ++
      (p.name ++ (textOf p.gap ++ '(' :: (textOf p.rest ++ ';' :: textOf after))) := by
    rw [h.row_eq, Prototype.tokens, Prototype.declarator]
    simp [textOf_map_code, CToken.text]
  have hrow : row = (before ++ p.specifiers ++ p.name.map .code ++ p.gap ++ [.code '(']) ++
      (p.rest ++ .code ';' :: after) := by
    rw [h.row_eq, Prototype.tokens, Prototype.declarator]
    simp
  have hlexed : WellLexed (p.rest ++ .code ';' :: after) := by
    have hlexed := hread.lexed
    rw [hrow] at hlexed
    exact WellLexed.of_append hlexed
  have hend := declarationEnd?_bracketed h.wellFormed.rest (hread.brackets before p after h) hlexed
  have hmention := mem_nameMatches_here (fun name hname => (hread.words name hname).2) h.named h.wellFormed.name_ne_nil
    (h.before_name hread.lexed) hgap (textOf p.rest ++ ';' :: textOf after)
  rw [← htext] at hmention
  refine ⟨_, hmention, ?_, ?_, textOf after, hend, ?_⟩
  · rw [htext, List.length_append, Nat.add_sub_cancel_right]
    rfl
  · have hplace := trueDepths_place (before ++ p.specifiers) (p.declarator ++ after)
    rw [computeBraceDepthAt_c hread.taken hread.lexed, ← h.depth, ← hplace, h.row_eq, Prototype.tokens,
      List.append_assoc, List.append_assoc]
  · rw [h.row_eq, ← List.append_assoc, textOf_append, List.length_append, Nat.add_sub_cancel_right]
    rfl

/-! ## Lines -/

/-- What is taken from the front is as long as all of it satisfies the condition. -/
theorem le_length_takeWhile {α : Type*} {f : α → Bool} : ∀ {l : List α} {k : Nat}, k ≤ l.length →
    (k ≤ (l.takeWhile f).length ↔ ∀ x ∈ l.take k, f x = true)
  | l, 0, _ => ⟨fun _ x hx => by simp at hx, fun _ => Nat.zero_le _⟩
  | [], k + 1, h => absurd h (Nat.not_succ_le_zero k)
  | x :: l, k + 1, h => by
    rw [List.takeWhile_cons, List.take_succ_cons, List.forall_mem_cons]
    split
    · rename_i hx
      rw [List.length_cons, Nat.add_le_add_iff_right, le_length_takeWhile (Nat.le_of_succ_le_succ h)]
      exact (and_iff_right hx).symm
    · rename_i hx
      exact ⟨fun h => absurd h (Nat.not_succ_le_zero k), fun h => absurd h.1 hx⟩

/-- **A place is on the line of a later one** if no line break is between them. -/
theorem lineStart_le_iff {text : List Char} {i j : Nat} (hj : j ≤ i) (hi : i ≤ text.length) :
    lineStart text i ≤ j ↔ '\n' ∉ (text.take i).drop j := by
  have hlength : (text.take i).length = i := by rw [List.length_take]; omega
  have hreverse : ((text.take i).drop j).reverse = (text.take i).reverse.take (i - j) := by
    rw [List.reverse_drop, hlength]
  have hall : (∀ c ∈ (text.take i).reverse.take (i - j), decide (c ≠ '\n') = true) ↔ '\n' ∉ (text.take i).drop j := by
    rw [← hreverse]
    simp only [List.mem_reverse, decide_eq_true_eq]
    exact ⟨fun h hin => h _ hin rfl, fun h c hc heq => h (heq ▸ hc)⟩
  rw [← hall, ← le_length_takeWhile (by rw [List.length_reverse, hlength]; exact Nat.sub_le i j), lineStart]
  omega

/-- Places on one line have one start. -/
theorem lineStart_eq {text : List Char} {i j : Nat} (h : lineStart text i ≤ j) (hj : j ≤ i) (hi : i ≤ text.length) :
    lineStart text j = lineStart text i := by
  refine Nat.le_antisymm (lineStart_mono text hj) ((lineStart_le_iff ?_ hi).mpr ?_)
  · exact (lineStart_le text j).trans hj
  · have hown := (lineStart_le_iff (lineStart_le text j) (hj.trans hi)).mp (Nat.le_refl _)
    have hbetween := (lineStart_le_iff hj hi).mp h
    have hsplit : text.take i = text.take j ++ (text.take i).drop j := by
      have htake : (text.take i).take j = text.take j := by rw [List.take_take, Nat.min_eq_left hj]
      rw [← htake]
      exact (List.take_append_drop j (text.take i)).symm
    have hlength : (text.take j).length = j := by rw [List.length_take]; omega
    rw [hsplit, List.drop_append_of_le_length (by rw [hlength]; exact lineStart_le text j), List.mem_append, not_or]
    exact ⟨hown, hbetween⟩

/-! ## What is removed -/

/-- A place in a row is a place in its text. -/
theorem place_le_length {front back : List CToken} (h : row = front ++ back) : place front ≤ (textOf row).length := by
  rw [h, textOf_append, List.length_append]
  exact Nat.le_add_right _ _

/-- A token ends within the text. -/
theorem token_end_le {front back : List CToken} {token : CToken} (h : row = front ++ token :: back) :
    place front + token.text.length ≤ (textOf row).length := by
  rw [h, textOf_append, textOf_cons, List.length_append, List.length_append]
  exact Nat.add_le_add_left (Nat.le_add_right _ _) _

/-- The character at the place of a token. -/
theorem getElem?_place {front back : List CToken} {token : CToken} (h : row = front ++ token :: back) :
    (textOf row)[place front]? = token.text.head? := by
  rw [h, place, textOf_append, textOf_cons, List.getElem?_append_right (Nat.le_refl _), Nat.sub_self,
    ← List.head?_eq_getElem?, List.head?_append_of_ne_nil _ token.text_ne_nil]

/-- A character stays exactly if no removed span covers it. -/
theorem stays_iff {i : Nat} (hi : i < (textOf row).length) :
    Stays chars isalpha names row i ↔ ¬ Covered (spansToRemove chars isalpha names (textOf row)) i := by
  have hmem : ∀ c, (c, i) ∈ keptPlaces chars isalpha names (textOf row) ↔ (textOf row)[i]? = some c ∧ 0 ≤ i ∧
      ¬ Covered (spansToRemove chars isalpha names (textOf row)) i :=
    fun c => mem_cutSpans 0 (spansToRemove_pairwise names (textOf row))
  constructor
  · rintro ⟨c, hc⟩
    exact ((hmem c).mp hc).2.2
  · exact fun h => ⟨(textOf row)[i], (hmem _).mpr ⟨List.getElem?_eq_getElem hi, Nat.zero_le i, h⟩⟩

/-- A prototype ends in a semicolon. -/
theorem Dependency.semicolon (h : Dependency chars names row before p after) :
    ∃ front, row = front ++ .code ';' :: after ∧ place front + 1 = place (before ++ p.tokens) := by
  refine ⟨before ++ (p.specifiers ++ (p.name.map .code ++ (p.gap ++ .code '(' :: p.rest))), ?_, ?_⟩
  · rw [h.row_eq, Prototype.tokens, Prototype.declarator]
    simp
  · rw [Prototype.tokens, Prototype.declarator]
    simp only [place_append, place_cons, place_nil, CToken.text, List.length_singleton]
    omega

/-- A prototype begins with a word. -/
theorem Dependency.first (h : Dependency chars names row before p after) :
    ∃ c back, row = before ++ .code c :: back ∧ chars.word c = true ∧
      place before < place (before ++ p.specifiers) := by
  obtain ⟨c, more, hfirst, hword⟩ := h.wellFormed.first
  refine ⟨c, more ++ (p.declarator ++ after), ?_, hword, ?_⟩
  · rw [h.row_eq, Prototype.tokens, hfirst]
    simp
  · rw [place_append, hfirst, place_cons]
    exact Nat.lt_add_of_pos_right (Nat.lt_of_lt_of_le (text_length_pos _) (Nat.le_add_right _ _))

/-- A prototype ends within the text. -/
theorem Dependency.end_le (h : Dependency chars names row before p after) :
    place (before ++ p.tokens) ≤ (textOf row).length :=
  place_le_length (h.row_eq.trans (List.append_assoc ..).symm)

/-- **A token is in a prototype or out of it** as a whole. -/
theorem Dependency.split (h : Dependency chars names row before p after) {front back : List CToken} {token : CToken}
    (hrow : row = front ++ token :: back) :
    (place before ≤ place front ∨ place front + token.text.length ≤ place before) ∧
      (place (before ++ p.tokens) ≤ place front ∨ place front + token.text.length ≤ place (before ++ p.tokens)) :=
  ⟨place_split (hrow.symm.trans h.row_eq), place_split (hrow.symm.trans (h.row_eq.trans (List.append_assoc ..).symm))⟩

/-- Whether a character is in a prototype is the same for all characters of a token. -/
theorem inPrototype_token {front back : List CToken} {token : CToken} (hrow : row = front ++ token :: back) {i : Nat}
    (hle : place front ≤ i) (hlt : i < place front + token.text.length) :
    InPrototype chars names row i ↔ InPrototype chars names row (place front) := by
  have hpos := token.text_length_pos
  constructor
  all_goals
    rintro ⟨before, p, after, h, hbegin, hend⟩
    obtain ⟨hbefore, hafter⟩ := h.split hrow
    exact ⟨before, p, after, h, by omega, by omega⟩

/-- A token that is not a blank begins with a character that is none. -/
theorem first_not_blank {token : CToken} (hformed : token.WellFormed)
    (hblank : ∀ c, token = .code c → chars.space c = false) :
    ∃ c, token.text.head? = some c ∧ chars.space c = false := by
  have hmarks : ∀ c ∈ ['"', '\'', '/'], chars.space c = false := by
    simp only [List.mem_cons, List.not_mem_nil, or_false]
    rintro c (rfl | rfl | rfl) <;> exact chars.space_ascii _ (by decide)
  cases token with
  | code c => exact ⟨c, rfl, hblank c rfl⟩
  | literal quote pieces =>
    refine ⟨quote, rfl, ?_⟩
    rcases hformed.1 with rfl | rfl
    · exact hmarks _ (by decide)
    · exact hmarks _ (by decide)
  | lineComment body => exact ⟨'/', rfl, hmarks _ (by decide)⟩
  | blockComment body => exact ⟨'/', rfl, hmarks _ (by decide)⟩

/-- The name of a prototype is on its first line if no line break is in the specifiers. -/
theorem Dependency.firstLine_iff (h : Dependency chars names row before p after) :
    lineStart (textOf row) (place (before ++ p.specifiers)) ≤ place before ↔ '\n' ∉ textOf p.specifiers := by
  have htext : textOf row = textOf (before ++ p.specifiers) ++ textOf (p.declarator ++ after) := by
    rw [h.row_eq, Prototype.tokens, ← textOf_append]
    simp
  have htake : ((textOf row).take (place (before ++ p.specifiers))).drop (place before) = textOf p.specifiers := by
    have hfront : (textOf row).take (place (before ++ p.specifiers)) = textOf before ++ textOf p.specifiers := by
      rw [htext, place, List.take_left, textOf_append]
    rw [hfront, place, List.drop_left]
  rw [lineStart_le_iff, htake]
  · rw [place_append]
    exact Nat.le_add_right _ _
  · rw [htext, List.length_append]
    exact Nat.le_add_right _ _

/-- A prototype whose name is on its first line begins on that line. -/
theorem Dependency.line_eq (h : Dependency chars names row before p after)
    (hle : lineStart (textOf row) (place (before ++ p.specifiers)) ≤ place before) :
    lineStart (textOf row) (place before) = lineStart (textOf row) (place (before ++ p.specifiers)) := by
  obtain ⟨_, _, _, _, hlt⟩ := h.first
  exact lineStart_eq hle hlt.le ((p.name_lt before).le.trans h.end_le)

section Exact

variable {front back : List CToken} {token : CToken} {i : Nat} (hread : ReadAsC chars isalpha names row)

include hread

/-- A mention in a prototype is that of its name, and is read to its end. -/
theorem ReadAsC.declares_eq {start stop : Nat} (hdecl : Declares chars isalpha names (textOf row) start stop)
    (hin : InPrototype chars names row start) : ∃ before p after, Dependency chars names row before p after ∧
      start = place (before ++ p.specifiers) ∧ stop = place (before ++ p.tokens) := by
  obtain ⟨before, p, after, h, hle, hlt⟩ := hin
  have hstart := hread.single before p after h start stop hdecl hle hlt
  subst hstart
  exact ⟨before, p, after, h, rfl, hdecl.unique (hread.declares h)⟩

/-- **What is removed** where no other mention is taken for a declaration: of the tokens that are no blanks, those from
the start of the line of a prototype's name to the end of the prototype. -/
theorem ReadAsC.gone_iff
    (hothers : ∀ start stop, Declares chars isalpha names (textOf row) start stop → InPrototype chars names row start)
    (hrow : row = front ++ token :: back) (hblank : ∀ c, token = .code c → chars.space c = false)
    (hle : place front ≤ i) (hlt : i < place front + token.text.length) :
    ¬ Stays chars isalpha names row i ↔ ∃ before p after, Dependency chars names row before p after ∧
      lineStart (textOf row) (place (before ++ p.specifiers)) ≤ i ∧ i < place (before ++ p.tokens) := by
  rw [stays_iff (Nat.lt_of_lt_of_le hlt (token_end_le hrow)), not_not]
  constructor
  · rintro ⟨span, hspan, hbegin, hend⟩
    obtain ⟨start, stop, hdecl, rfl⟩ := mem_spansToRemove.mp hspan
    obtain ⟨before, p, after, h, rfl, rfl⟩ := hread.declares_eq hdecl (hothers start stop hdecl)
    refine ⟨before, p, after, h, hbegin, Nat.lt_of_not_le fun hstop => ?_⟩
    -- the token begins behind the semicolon, where there are only blanks up to the place
    obtain ⟨-, hsplit⟩ := h.split hrow
    have hfront : place (before ++ p.tokens) ≤ place front := by omega
    have hformed : token.WellFormed := hread.lexed.wellFormed token (hrow ▸ List.mem_append_right _ List.mem_cons_self)
    obtain ⟨c, hc, hspace⟩ := first_not_blank hformed hblank
    have hget := (getElem?_place hrow).trans hc
    have hrest : chars.space c = true := blank_of_lineRest hget hfront (Nat.lt_of_le_of_lt hle hend)
    rw [hspace] at hrest
    cases hrest
  · rintro ⟨before, p, after, h, hbegin, hend⟩
    exact ⟨_, mem_spansToRemove.mpr ⟨_, _, hread.declares h, rfl⟩, hbegin,
      Nat.lt_of_lt_of_le hend (Nat.le_add_right _ _)⟩

/-! ### Alone is enough -/

omit hread in
/-- Where prototypes stand alone, the line of a name is that of its prototype. -/
theorem StandAlone.line (halone : StandAlone chars isalpha names row) (h : Dependency chars names row before p after) :
    lineStart (textOf row) (place (before ++ p.specifiers)) ≤ place before ∧
      lineStart (textOf row) (place before) = lineStart (textOf row) (place (before ++ p.specifiers)) := by
  have hle := h.firstLine_iff.mpr (halone.firstLine before p after h)
  exact ⟨hle, h.line_eq hle⟩

/-- Where prototypes stand alone, a token of code stays exactly if it is in none. -/
theorem StandAlone.tokens (halone : StandAlone chars isalpha names row) (hrow : row = front ++ token :: back)
    (hlayout : ¬ token.IsLayout chars) (hle : place front ≤ i) (hlt : i < place front + token.text.length) :
    Stays chars isalpha names row i ↔ ¬ InPrototype chars names row i := by
  have hblank : ∀ c, token = .code c → chars.space c = false := by
    rintro c rfl
    exact Bool.eq_false_iff.mpr hlayout
  refine not_iff_not.mp ((hread.gone_iff halone.others hrow hblank hle hlt).trans ?_)
  rw [not_not]
  constructor
  · rintro ⟨before, p, after, h, hbegin, hend⟩
    obtain ⟨hbefore, hafter⟩ := h.split hrow
    refine (inPrototype_token hrow hle hlt).mpr ?_
    rcases Nat.lt_or_ge (place front) (place before) with hfront | hfront
    · exact halone.before before p after h front token back hrow hlayout hfront
        (Nat.lt_of_le_of_lt ((halone.line h).2.le.trans hbegin) hlt)
    · exact ⟨before, p, after, h, hfront, by omega⟩
  · rintro ⟨before, p, after, h, hbegin, hend⟩
    exact ⟨before, p, after, h, (halone.line h).1.trans hbegin, hend⟩

/-- A comment of which something goes, goes: it is in a prototype, or before one on its line. -/
theorem StandAlone.gone_comment (halone : StandAlone chars isalpha names row) (hrow : row = front ++ token :: back)
    (hlayout : token.IsLayout chars) (hblank : ∀ c, token = .code c → chars.space c = false) (hle : place front ≤ i)
    (hlt : i < place front + token.text.length) (hgone : ¬ Stays chars isalpha names row i) :
    ∀ j, place front ≤ j → j < place front + token.text.length → ¬ Stays chars isalpha names row j := by
  intro j hj hjlt
  refine (hread.gone_iff halone.others hrow hblank hj hjlt).mpr ?_
  by_cases hin : InPrototype chars names row (place front)
  · obtain ⟨before, p, after, h, hbegin, hend⟩ := (inPrototype_token hrow hj hjlt).mpr hin
    exact ⟨before, p, after, h, (halone.line h).1.trans hbegin, hend⟩
  · obtain ⟨before, p, after, h, hbegin, hend⟩ := (hread.gone_iff halone.others hrow hblank hle hlt).mp hgone
    obtain ⟨hbefore, hafter⟩ := h.split hrow
    have hline := (halone.line h).2
    have hnameLt := p.name_lt before
    obtain ⟨_, _, _, _, _⟩ := h.first
    have hfront : place front < place before := by
      by_contra hge
      exact hin ⟨before, p, after, h, by omega, by omega⟩
    have hstart : lineStart (textOf row) (place before) ≤ place front := by
      by_contra hlate
      have hover := halone.comments before p after h front token back hrow hlayout hin (by omega)
      omega
    exact ⟨before, p, after, h, by omega, by omega⟩

/-- So exactly the prototypes are removed. -/
theorem StandAlone.removesExactly (halone : StandAlone chars isalpha names row) :
    RemovesExactly chars isalpha names row := by
  refine ⟨fun front token back hrow hlayout i hle hlt => halone.tokens hread hrow hlayout hle hlt,
    fun front token back hrow hlayout => ?_⟩
  by_cases hcode : ∃ c, token = .code c
  · -- a blank is one character
    obtain ⟨c, rfl⟩ := hcode
    have honly : ∀ i, place front ≤ i → i < place front + (CToken.code c).text.length → i = place front := by
      intro i hle hlt
      have hone : (CToken.code c).text.length = 1 := rfl
      omega
    by_cases hstays : Stays chars isalpha names row (place front)
    · exact .inl fun i hle hlt => by rwa [honly i hle hlt]
    · exact .inr fun i hle hlt => by rwa [honly i hle hlt]
  · have hblank : ∀ c, token = .code c → chars.space c = false := fun c hc => absurd ⟨c, hc⟩ hcode
    by_cases hall : ∀ i, place front ≤ i → i < place front + token.text.length → Stays chars isalpha names row i
    · exact .inl hall
    · push Not at hall
      obtain ⟨i, hle, hlt, hgone⟩ := hall
      exact .inr (halone.gone_comment hread hrow hlayout hblank hle hlt hgone)

/-! ### Alone is needed -/

omit hread in
/-- A word at a place is removed if and only if it is in a prototype. -/
theorem RemovesExactly.word {c : Char} (hexact : RemovesExactly chars isalpha names row)
    (hrow : row = front ++ .code c :: back) (hword : chars.word c = true) :
    ¬ Stays chars isalpha names row (place front) ↔ InPrototype chars names row (place front) := by
  have hlayout : ¬ (CToken.code c).IsLayout chars := fun hspace =>
    Bool.false_ne_true ((chars.disjoint c hword).symm.trans hspace)
  exact (not_congr (hexact.tokens front (.code c) back hrow hlayout (place front) (Nat.le_refl _)
    (Nat.lt_succ_self _))).trans not_not

/-- Conversely, where exactly these are removed, everything the scan takes for a prototype begins in
one. -/
theorem RemovesExactly.others (hexact : RemovesExactly chars isalpha names row) (start stop : Nat)
    (hdecl : Declares chars isalpha names (textOf row) start stop) : InPrototype chars names row start := by
  obtain ⟨front, c, back, hrow, rfl⟩ := hread.mentions start stop hdecl
  have hword : chars.word c = true := by
    obtain ⟨d, hd, hword⟩ := hdecl.first hread.words
    rw [getElem?_place hrow] at hd
    rwa [Option.some.inj hd]
  refine (hexact.word hrow hword).mp ?_
  rw [stays_iff (Nat.lt_of_lt_of_le (Nat.lt_succ_self _) (token_end_le hrow)), not_not]
  exact ⟨_, mem_spansToRemove.mpr ⟨_, _, hdecl, rfl⟩, lineStart_le _ _,
    Nat.lt_of_lt_of_le hdecl.start_lt (Nat.le_add_right _ _)⟩

/-- A prototype whose name comes before that of another one ends before the other begins. -/
theorem ReadAsC.apart {before' after' : List CToken} {p' : Prototype} (h : Dependency chars names row before p after)
    (h' : Dependency chars names row before' p' after')
    (hearlier : place (before' ++ p'.specifiers) < place (before ++ p.specifiers)) :
    place (before' ++ p'.tokens) ≤ place before := by
  have hname := p.name_lt before
  have hname' := p'.name_lt before'
  obtain ⟨_, _, _, _, hlt'⟩ := h'.first
  have hbefore : place (before' ++ p'.specifiers) < place before := by
    by_contra hin
    have hsame := hread.single before p after h _ _ (hread.declares h') (by omega) (by omega)
    omega
  by_contra hover
  rcases Nat.lt_or_ge (place (before ++ p.specifiers)) (place (before' ++ p'.tokens)) with hends | hends
  · have hsame := hread.single before' p' after' h' _ _ (hread.declares h) (by omega) hends
    omega
  · -- the other's semicolon would be among the specifiers
    obtain ⟨front, hfront, hplace⟩ := h'.semicolon
    have hsemicolon : .code ';' ∈ p.specifiers := by
      refine mem_of_place (a := before) (b := p.specifiers) (c := p.declarator ++ after)
        (hfront.symm.trans (h.row_eq.trans ?_)) (by omega) (by omega)
      rw [Prototype.tokens, List.append_assoc]
    exact (h.wellFormed.specifiers.apart ';' hsemicolon).1 rfl

/-- The part of a prototype before the name is on one line, for else its first lines would stay. -/
theorem RemovesExactly.line (hexact : RemovesExactly chars isalpha names row)
    (h : Dependency chars names row before p after) :
    lineStart (textOf row) (place (before ++ p.specifiers)) ≤ place before := by
  obtain ⟨c, back, hrow, hword, hlt⟩ := h.first
  have hnameLt := p.name_lt before
  have hgone := (hexact.word hrow hword).mpr ⟨before, p, after, h, Nat.le_refl _, by omega⟩
  have hblank : ∀ d, CToken.code c = .code d → chars.space d = false := by
    rintro d heq
    rw [← CToken.code.inj heq]
    exact chars.disjoint c hword
  obtain ⟨before', p', after', h', hbegin, hend⟩ := (hread.gone_iff (hexact.others hread) hrow hblank (Nat.le_refl _)
    (Nat.lt_succ_self _)).mp hgone
  -- it goes with its own name or with a later one
  rcases Nat.lt_or_ge (place (before' ++ p'.specifiers)) (place (before ++ p.specifiers)) with hearlier | hlater
  · have hapart := hread.apart h h' hearlier
    omega
  · exact (lineStart_mono _ hlater).trans hbegin

/-- What stands before it on that line is in a prototype too, since the whole line goes. -/
theorem RemovesExactly.ahead (hexact : RemovesExactly chars isalpha names row)
    (h : Dependency chars names row before p after) (hrow : row = front ++ token :: back)
    (hlayout : ¬ token.IsLayout chars) (hfront : place front < place before)
    (hreach : lineStart (textOf row) (place before) < place front + token.text.length) :
    InPrototype chars names row (place front) := by
  have hline := h.line_eq (hexact.line hread h)
  obtain ⟨hbefore, -⟩ := h.split hrow
  obtain ⟨_, _, _, _, hlt⟩ := h.first
  have hnameLt := p.name_lt before
  have hstart := lineStart_le (textOf row) (place before)
  have hblank : ∀ c, token = .code c → chars.space c = false := by
    rintro c rfl
    exact Bool.eq_false_iff.mpr hlayout
  -- a place of the token on that line
  obtain ⟨i, hle, hi, hon⟩ : ∃ i, place front ≤ i ∧ i < place front + token.text.length ∧
      lineStart (textOf row) (place before) ≤ i := by
    have hpos := token.text_length_pos
    exact ⟨max (place front) (lineStart (textOf row) (place before)), by omega, by omega, by omega⟩
  have hgone := (hread.gone_iff (hexact.others hread) hrow hblank hle hi).mpr
    ⟨before, p, after, h, hline.symm.le.trans hon, by omega⟩
  rw [hexact.tokens front token back hrow hlayout i hle hi, not_not] at hgone
  exact (inPrototype_token hrow hle hi).mp hgone

/-- A comment outside the prototypes that begins before that line ends before it. -/
theorem RemovesExactly.comment (hexact : RemovesExactly chars isalpha names row)
    (h : Dependency chars names row before p after) (hrow : row = front ++ token :: back)
    (hlayout : token.IsLayout chars) (hout : ¬ InPrototype chars names row (place front))
    (hearly : place front < lineStart (textOf row) (place before)) :
    place front + token.text.length ≤ lineStart (textOf row) (place before) := by
  by_contra hover
  have hline := h.line_eq (hexact.line hread h)
  have hstart := lineStart_le (textOf row) (place before)
  obtain ⟨_, _, _, _, hlt⟩ := h.first
  have hnameLt := p.name_lt before
  have hblank : ∀ c, token = .code c → chars.space c = false := by
    rintro c rfl
    have hone : (CToken.code c).text.length = 1 := rfl
    omega
  have hpos := token.text_length_pos
  -- what is on the line of the prototype goes, so all of the comment goes
  have hgone : ¬ Stays chars isalpha names row (lineStart (textOf row) (place before)) :=
    (hread.gone_iff (hexact.others hread) hrow hblank (by omega) (by omega)).mpr
      ⟨before, p, after, h, hline.symm.le, by omega⟩
  have hnone := (hexact.comments front token back hrow hlayout).resolve_left fun hall =>
    hgone (hall _ (by omega) (by omega))
  obtain ⟨before', p', after', h', hbegin, hend⟩ :=
    (hread.gone_iff (hexact.others hread) hrow hblank (Nat.le_refl _) (by omega)).mp
      (hnone (place front) (Nat.le_refl _) (by omega))
  -- it goes with another prototype, whose name is on an earlier line
  have hearlier : place (before' ++ p'.specifiers) < place (before ++ p.specifiers) := by
    by_contra hlater
    have hmono := lineStart_mono (textOf row) (Nat.not_lt.mp hlater)
    omega
  obtain ⟨hsplit, -⟩ := h'.split hrow
  obtain ⟨_, _, _, _, hlt'⟩ := h'.first
  have hfront : place front + token.text.length ≤ place before' := by
    rcases hsplit with hsplit | hsplit
    · exact absurd ⟨before', p', after', h', hsplit, hend⟩ hout
    · exact hsplit
  -- but it is on the line too, behind the comment
  have hsame : lineStart (textOf row) (place (before' ++ p'.specifiers)) =
      lineStart (textOf row) (place (before ++ p.specifiers)) :=
    lineStart_eq (by omega) hearlier.le ((p.name_lt before).le.trans h.end_le)
  omega

/-- So the prototypes stand alone. This is the direction from the result to the condition. -/
theorem RemovesExactly.standAlone (hexact : RemovesExactly chars isalpha names row) :
    StandAlone chars isalpha names row where
  others := hexact.others hread
  firstLine _ _ _ h := h.firstLine_iff.mp (hexact.line hread h)
  before _ _ _ h _ _ _ hrow := hexact.ahead hread h hrow
  comments _ _ _ h _ _ _ hrow := hexact.comment hread h hrow

end Exact

/-- Characters of code are read as C does. -/
theorem taken_map_code (after : List CToken) : ∀ text : List Char,
    CToken.EachBefore (TakenRight isalpha) after (text.map .code)
  | [] => trivial
  | _ :: text => ⟨trivial, taken_map_code after text⟩

/-- A row with one opening bracket, and with a prototype of a name: the name is what the bracket follows. -/
theorem Dependency.of_one_bracket {name : List Char} {init back : List CToken} {c : Char}
    (h : Dependency chars [name] (init ++ .code c :: .code '(' :: back) before p after)
    (hinit : .code '(' ∉ init ++ [.code c]) (hback : .code '(' ∉ back) (hword : chars.word c = true) :
    before ++ p.specifiers ++ name.map .code = init ++ [.code c] ∧ p.gap = [] := by
  have hname : p.name = name := List.mem_singleton.mp h.named
  have hrow : (init ++ [.code c]) ++ .code '(' :: back =
      (before ++ p.specifiers ++ name.map .code ++ p.gap) ++ .code '(' :: (p.rest ++ .code ';' :: after) := by
    have hrow := h.row_eq
    rw [Prototype.tokens, Prototype.declarator, hname] at hrow
    simpa using hrow
  obtain ⟨hfront, -, -⟩ := (List.append_cons_inj_of_notMem hinit hback).mp hrow
  have hgap : p.gap = [] := by
    by_contra hne
    have hlast := congrArg List.getLast? hfront
    rw [List.getLast?_concat, List.getLast?_append_of_ne_nil _ hne] at hlast
    have hlayout := h.wellFormed.gap _ (List.mem_of_getLast? hlast.symm)
    exact Bool.false_ne_true ((chars.disjoint c hword).symm.trans hlayout)
  rw [hgap, List.append_nil] at hfront
  exact ⟨hfront.symm, hgap⟩

/-- `/* c */ int f(int a,` and ` int b);` on a line of its own, before the variable `int x;`. -/
def prototypeRow : List CToken :=
  .blockComment " c ".toList :: " int f(int a,\n int b);\nint x;".toList.map .code

/-- The tokens of the example, with the place where the name is called out. -/
theorem prototypeRow_eq : prototypeRow = (.blockComment " c ".toList :: " int ".toList.map .code) ++
    .code 'f' :: .code '(' :: "int a,\n int b);\nint x;".toList.map .code := by decide +kernel

/-- What the scan takes for a prototype in it. -/
theorem prototypeRow_declarations :
    declarations .ascii Char.isAlpha [['f']] (textOf prototypeRow) = [(12, 29)] := by decide +kernel

/-- There is one such place. -/
theorem declares_prototypeRow {start stop : Nat}
    (h : Declares .ascii Char.isAlpha [['f']] (textOf prototypeRow) start stop) : start = 12 := by
  have hin := mem_declarations.mpr h
  rw [prototypeRow_declarations] at hin
  exact (Prod.mk.inj (List.mem_singleton.mp hin)).1

/-- There is one prototype in it, which begins behind the comment. -/
theorem prototypeRow_dependency (h : Dependency .ascii [['f']] prototypeRow before p after) :
    before ++ p.specifiers = .blockComment " c ".toList :: " int ".toList.map .code ∧ p.gap = [] := by
  rw [prototypeRow_eq] at h
  obtain ⟨hfront, hgap⟩ := h.of_one_bracket (by decide +kernel) (by decide +kernel) (by decide)
  exact ⟨List.append_cancel_right hfront, hgap⟩

/-- The prototype in it. -/
def prototypeOfF : Prototype where
  specifiers := "int ".toList.map .code
  name := ['f']
  gap := []
  rest := "int a,\n int b)".toList.map .code

/-- That it is one, part by part. -/
theorem prototypeOfF_dependency : Dependency .ascii [['f']] prototypeRow [.blockComment " c ".toList, .code ' ']
    prototypeOfF ("\nint x;".toList.map .code) where
  row_eq := by decide +kernel
  wellFormed := {
    name_ne_nil := List.cons_ne_nil _ _
    word := List.forall_mem_singleton.mpr rfl
    first := ⟨'i', "nt ".toList.map .code, by decide +kernel, rfl⟩
    last := by
      intro c hc
      have hlast : prototypeOfF.specifiers.getLast? = some (.code ' ') := by decide +kernel
      rw [hlast] at hc
      obtain rfl := CToken.code.inj (Option.some.inj hc)
      rfl
    specifiers := by decide +kernel
    declares := by decide +kernel
    gap := fun token htoken => absurd htoken List.not_mem_nil
    rest := by decide +kernel }
  begins := ⟨by decide +kernel, [], _, rfl, .layout trivial (.layout rfl .nil), .inl rfl⟩
  named := List.mem_singleton_self _

/-- The example is read as C. -/
theorem prototypeRow_readAsC : ReadAsC .ascii Char.isAlpha [['f']] prototypeRow where
  lexed := by
    have hbody : ¬ ['*', '/'] <:+: " c ".toList ++ ['*'] := by decide +kernel
    exact ⟨hbody, trivial, wellLexed_map_code (by decide +kernel)⟩
  taken := ⟨trivial, taken_map_code _ _⟩
  words := List.forall_mem_singleton.mpr ⟨List.cons_ne_nil _ _, List.forall_mem_singleton.mpr rfl⟩
  mentions := fun start stop h => by
    obtain rfl := declares_prototypeRow h
    exact ⟨_, _, _, prototypeRow_eq, by decide +kernel⟩
  gaps := fun before p after h token htoken => by
    rw [(prototypeRow_dependency h).2] at htoken
    cases htoken
  brackets := fun before p after h token htoken => by
    have hin : token ∈ prototypeRow := by
      rw [h.row_eq, Prototype.tokens, Prototype.declarator]
      simp [htoken]
    rcases List.mem_cons.mp hin with rfl | hin
    · have hbody : " c ".toList = [' ', 'c', ' '] := by decide +kernel
      rw [hbody, Harmless]
      simp
    · obtain ⟨c, -, rfl⟩ := List.mem_map.mp hin
      trivial
  single := fun before p after h start stop hdecl _ _ => by
    rw [declares_prototypeRow hdecl, (prototypeRow_dependency h).1]
    decide +kernel

/-- Its prototype stands alone. -/
theorem prototypeRow_standAlone : StandAlone .ascii Char.isAlpha [['f']] prototypeRow := by
  have hstart : ∀ {before p after}, Dependency .ascii [['f']] prototypeRow before p after →
      lineStart (textOf prototypeRow) (place before) = 0 := by
    intro before p after h
    have hplace : place before ≤ 12 := by
      have hfront : place (before ++ p.specifiers) = 12 := by
        rw [(prototypeRow_dependency h).1]
        decide +kernel
      rw [place_append] at hfront
      omega
    have hline : lineStart (textOf prototypeRow) 12 = 0 := by decide +kernel
    exact Nat.le_zero.mp ((lineStart_mono _ hplace).trans_eq hline)
  refine ⟨fun start stop h => ?_, fun before p after h hin => ?_, ?_, ?_⟩
  · obtain rfl := declares_prototypeRow h
    exact ⟨_, _, _, prototypeOfF_dependency, by decide +kernel, by decide +kernel⟩
  · have hnone : '\n' ∉ textOf (.blockComment " c ".toList :: " int ".toList.map .code) := by decide +kernel
    rw [← (prototypeRow_dependency h).1, textOf_append] at hnone
    exact hnone (List.mem_append_right _ hin)
  · intro before p after h front token back hrow hlayout hfront _
    -- what is before the prototype begins as a declaration does, so there are only blanks and comments
    have hin : token ∈ before := by
      refine mem_of_place (a := []) (b := before) (c := p.tokens ++ after) (hrow.symm.trans ?_) (Nat.zero_le _) hfront
      rw [h.row_eq, List.nil_append]
    have hbefore : ∀ token ∈ before, token ∈ .blockComment " c ".toList :: " int ".toList.map CToken.code := by
      rw [← (prototypeRow_dependency h).1]
      exact fun token => List.mem_append_left _
    have hnone : ∀ c, CToken.code c ∉ .blockComment " c ".toList :: " int ".toList.map CToken.code →
        .code c ∉ before := fun c hc h => hc (hbefore _ h)
    obtain ⟨-, closed, lead, rfl, hlead, hclosed⟩ := h.begins
    have hnil : closed = [] := by
      refine hclosed.resolve_right ?_
      rintro (hlast | ⟨head, mark, gap, body, rfl, -⟩)
      · exact hnone ';' (by decide +kernel) (List.mem_append_left _ (List.mem_of_getLast? hlast))
      · exact hnone '\x7d' (by decide +kernel) (by simp)
    subst hnil
    exact absurd (hlead.layout_of_mem (hnone '#' (by decide +kernel)) token hin) hlayout
  · intro before p after h front token back _ _ _ hearly
    rw [hstart h] at hearly
    exact absurd hearly (Nat.not_lt_zero _)

/-- A variable that is initialised by a call, and another one. -/
def initialiserRow : List CToken := "static int x = foo(3);\nint y;".toList.map .code

/-- The tokens of the example in which a variable is initialised by a call. -/
theorem initialiserRow_eq : initialiserRow = "static int x = fo".toList.map .code ++
    .code 'o' :: .code '(' :: "3);\nint y;".toList.map .code := by decide +kernel

end Assure
