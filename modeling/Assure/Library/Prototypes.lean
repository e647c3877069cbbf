import Assure.Library.CText

/-!
# Prototypes in C

A forward declaration of a function in a row of tokens: specifiers and stars, the name, an opening bracket, and what
follows it up to a semicolon, with brackets matched (`Prototype`). One stands at the top level (`TopLevel`) at brace
depth zero, where nothing, a semicolon or the body of a function comes before it, blanks, comments and directives apart.

Other forms of a forward declaration are none here: a name in brackets of its own, a result that is a pointer to a
function, a list of declarators, a struct that is defined on the way. They need a grammar of declarators.

Places in the text of a row are given by the tokens before them. No place between two tokens lies inside a token
(`place_split`).
-/

namespace Assure.Library

namespace CToken

/-! ## Places -/

/-- The place behind so many tokens. -/
def place (front : List CToken) : Nat := (textOf front).length

/-- No tokens take no place. -/
@[simp] theorem place_nil : place [] = 0 := rfl

/-- The place behind two rows of tokens is counted through both. -/
@[simp] theorem place_append (front back : List CToken) : place (front ++ back) = place front + place back := by
  rw [place, textOf_append, List.length_append]
  rfl

/-- The first token moves the place by its length. -/
theorem place_cons (token : CToken) (tokens : List CToken) :
    place (token :: tokens) = token.text.length + place tokens := by
  rw [place, textOf_cons, List.length_append]
  rfl

/-- No token is empty. -/
theorem text_length_pos (token : CToken) : 0 < token.text.length := List.length_pos_of_ne_nil token.text_ne_nil

variable {front front' back back' a b c : List CToken} {token : CToken}

/-- **A place between tokens is not inside a token.** -/
theorem place_split (h : front ++ token :: back = front' ++ back') :
    place front' ≤ place front ∨ place front + token.text.length ≤ place front' := by
  rcases List.append_eq_append_iff.mp h with ⟨x, rfl, hx⟩ | ⟨x, rfl, -⟩
  · cases x with
    | nil => exact .inl (by rw [List.append_nil])
    | cons token' x =>
      obtain ⟨rfl, -⟩ := List.cons.inj hx
      rw [place_append, place_cons]
      exact .inr (by omega)
  · rw [place_append]
    exact .inl (by omega)

/-- A token at a place within a part of the row is one of the part. -/
theorem mem_of_place (h : front ++ token :: back = a ++ (b ++ c)) (hle : place a ≤ place front)
    (hlt : place front < place (a ++ b)) : token ∈ b := by
  have hpos := token.text_length_pos
  rw [place_append] at hlt
  rcases List.append_eq_append_iff.mp h with ⟨x, rfl, hx⟩ | ⟨x, rfl, hx⟩
  · cases x with
    | nil =>
      cases b with
      | nil => simp at hlt
      | cons token' b =>
        obtain ⟨rfl, -⟩ := List.cons.inj hx
        exact List.mem_cons_self
    | cons token' x =>
      obtain ⟨rfl, -⟩ := List.cons.inj hx
      rw [place_append, place_cons] at hle
      omega
  · rw [place_append] at hlt
    rcases List.append_eq_append_iff.mp hx with ⟨y, rfl, hy⟩ | ⟨y, rfl, hy⟩
    · rw [place_append] at hlt
      omega
    · cases y with
      | nil =>
        rw [List.append_nil] at hlt
        omega
      | cons token' y =>
        obtain ⟨rfl, -⟩ := List.cons.inj hy
        exact List.mem_append_right _ List.mem_cons_self

/-! ## Layout and brackets -/

variable (chars : CharClass)

/-- A blank or a comment. -/
def IsLayout : CToken → Prop
  | .code c => chars.space c = true
  | .literal _ _ => False
  | .lineComment _ | .blockComment _ => True

/-- Blanks, comments and directives of one line. -/
inductive IsLead : List CToken → Prop
  | nil : IsLead []
  | layout {token : CToken} {lead : List CToken} (h : token.IsLayout chars) (hlead : IsLead lead) :
    IsLead (token :: lead)
  | directive {line lead : List CToken} (h : .code '\n' ∉ line) (hlead : IsLead lead) :
    IsLead (.code '#' :: (line ++ .code '\n' :: lead))

variable {chars} in
/-- Where there is no directive there are blanks and comments only. -/
theorem IsLead.layout_of_mem {lead : List CToken} (h : IsLead chars lead) (hnone : .code '#' ∉ lead) :
    ∀ token ∈ lead, token.IsLayout chars := by
  induction h with
  | nil => exact fun token htoken => absurd htoken List.not_mem_nil
  | layout hlayout _ ih =>
    exact List.forall_mem_cons.mpr ⟨hlayout, ih fun hin => hnone (List.mem_cons_of_mem _ hin)⟩
  | directive => exact absurd List.mem_cons_self hnone

/-- **A row ends in the body of a function**: a block at the top level, behind a closing bracket, or behind the semicolon
of an old-style parameter declaration. The braces of a struct or of an initialiser follow a word or a sign. -/
def EndsInBody (closed : List CToken) : Prop :=
  ∃ head mark gap body, closed = head ++ .code mark :: (gap ++ .code '\x7b' :: (body ++ [.code '\x7d'])) ∧
    (mark = ')' ∨ mark = ';') ∧ (∀ token ∈ gap, token.IsLayout chars) ∧ depthAfter 0 (rows head) = 0 ∧
    ∀ inner, inner <+: body → 0 ≤ depthAfter 0 (rows inner)

/-- **An external declaration can begin** behind a row: no brace is open, and but for blanks, comments and directives
the row is empty, or ends in a semicolon or in the body of a function. -/
def Begins (before : List CToken) : Prop :=
  depthAfter 0 (rows before) = 0 ∧ ∃ closed lead, before = closed ++ lead ∧ IsLead chars lead ∧
    (closed = [] ∨ closed.getLast? = some (.code ';') ∨ EndsInBody chars closed)

/-- **Round brackets are matched**, so many being open. Outside them there is no literal, and of code only what is
allowed; there is no semicolon and no brace anywhere. -/
def Enclosed (allowed : Char → Bool) : Nat → List CToken → Prop
  | depth, [] => depth = 0
  | depth, .code c :: tokens =>
    if c = '(' then Enclosed allowed (depth + 1) tokens
    else if c = ')' then 0 < depth ∧ Enclosed allowed (depth - 1) tokens
    else (c ≠ ';' ∧ c ≠ '\x7b' ∧ c ≠ '\x7d') ∧ (0 < depth ∨ allowed c = true) ∧ Enclosed allowed depth tokens
  | depth, .literal _ _ :: tokens => 0 < depth ∧ Enclosed allowed depth tokens
  | depth, .lineComment _ :: tokens | depth, .blockComment _ :: tokens => Enclosed allowed depth tokens

instance decidableEnclosed (allowed : Char → Bool) : ∀ (depth : Nat) (tokens : List CToken),
    Decidable (Enclosed allowed depth tokens)
  | depth, [] => inferInstanceAs (Decidable (depth = 0))
  | depth, .code c :: tokens =>
    have := decidableEnclosed allowed (depth + 1) tokens
    have := decidableEnclosed allowed (depth - 1) tokens
    have := decidableEnclosed allowed depth tokens
    inferInstanceAs (Decidable (if c = '(' then Enclosed allowed (depth + 1) tokens
      else if c = ')' then 0 < depth ∧ Enclosed allowed (depth - 1) tokens
      else (c ≠ ';' ∧ c ≠ '\x7b' ∧ c ≠ '\x7d') ∧ (0 < depth ∨ allowed c = true) ∧ Enclosed allowed depth tokens))
  | depth, .literal _ _ :: tokens =>
    have := decidableEnclosed allowed depth tokens
    inferInstanceAs (Decidable (0 < depth ∧ Enclosed allowed depth tokens))
  | depth, .lineComment _ :: tokens | depth, .blockComment _ :: tokens =>
    have := decidableEnclosed allowed depth tokens
    inferInstanceAs (Decidable (Enclosed allowed depth tokens))

/-- What is enclosed in brackets has no semicolon and no brace in it, so a declaration does not end
there. -/
theorem Enclosed.apart {allowed : Char → Bool} : ∀ {depth : Nat} {tokens : List CToken},
    Enclosed allowed depth tokens → ∀ c, .code c ∈ tokens → c ≠ ';' ∧ c ≠ '\x7b' ∧ c ≠ '\x7d'
  | _, [], _, _, hc => absurd hc List.not_mem_nil
  | depth, .code d :: tokens, h, c, hc => by
    rw [Enclosed] at h
    split at h
    · rename_i hopen
      rcases List.mem_cons.mp hc with heq | hc
      · obtain rfl := CToken.code.inj heq
        rw [hopen]
        decide
      · exact h.apart c hc
    · split at h
      · rename_i hclose
        rcases List.mem_cons.mp hc with heq | hc
        · obtain rfl := CToken.code.inj heq
          rw [hclose]
          decide
        · exact h.2.apart c hc
      · rcases List.mem_cons.mp hc with heq | hc
        · obtain rfl := CToken.code.inj heq
          exact h.1
        · exact h.2.2.apart c hc
  | _, .literal _ _ :: _, h, c, hc => h.2.apart c ((List.mem_cons.mp hc).resolve_left (by simp))
  | _, .lineComment _ :: tokens, h, c, hc =>
    have hrest : Enclosed allowed _ tokens := h
    hrest.apart c ((List.mem_cons.mp hc).resolve_left (by simp))
  | _, .blockComment _ :: tokens, h, c, hc =>
    have hrest : Enclosed allowed _ tokens := h
    hrest.apart c ((List.mem_cons.mp hc).resolve_left (by simp))

/-- There are no braces in it. -/
theorem Enclosed.braces {allowed : Char → Bool} {depth : Nat} {tokens : List CToken}
    (h : Enclosed allowed depth tokens) : ∀ token ∈ tokens, token.braces = 0 := by
  intro token htoken
  cases token with
  | code c =>
    obtain ⟨-, hopen, hclose⟩ := h.apart c htoken
    rw [CToken.braces, if_neg hopen, if_neg hclose]
    rfl
  | literal | lineComment | blockComment => rfl

end CToken

open CToken

/-- **A forward declaration of a function**: specifiers, the name, what stands between it and the bracket, and what
stands between that bracket and the semicolon. -/
structure Prototype where
  specifiers : List CToken
  name : List Char
  gap : List CToken
  rest : List CToken

namespace Prototype

/-- From the name on. -/
def declarator (p : Prototype) : List CToken :=
  p.name.map .code ++ (p.gap ++ .code '(' :: (p.rest ++ [.code ';']))

def tokens (p : Prototype) : List CToken := p.specifiers ++ p.declarator

/-- The name begins before the prototype ends. -/
theorem name_lt (p : Prototype) (before : List CToken) :
    place (before ++ p.specifiers) < place (before ++ p.tokens) := by
  rw [tokens, declarator]
  simp only [place_append, place_cons, CToken.text, List.length_singleton]
  omega

variable (chars : CharClass)

/-- **What makes a forward declaration.** The specifiers are words, stars and groups in brackets (of attributes); they
begin with a word, and `typedef` is none of them. The name is a word apart from them, with blanks or comments at most
before its bracket. Behind the parameters are only words and groups in brackets. -/
structure WellFormed (p : Prototype) : Prop where
  name_ne_nil : p.name ≠ []
  word : ∀ c ∈ p.name, chars.word c = true
  first : ∃ c more, p.specifiers = .code c :: more ∧ chars.word c = true
  last : ∀ c, p.specifiers.getLast? = some (.code c) → chars.word c = false
  specifiers : Enclosed (fun c => chars.word c || chars.space c || c == '*') 0 p.specifiers
  declares : "typedef".toList ∉ (codeOf p.specifiers).splitOnP fun c => !chars.word c
  gap : ∀ token ∈ p.gap, token.IsLayout chars
  rest : Enclosed (fun c => chars.word c || chars.space c) 1 p.rest

/-- **A prototype at the top level of a row**: what stands before it and behind it. -/
structure TopLevel (row before : List CToken) (p : Prototype) (after : List CToken) : Prop where
  row_eq : row = before ++ (p.tokens ++ after)
  wellFormed : p.WellFormed chars
  begins : Begins chars before

variable {chars} {p : Prototype} {row before after : List CToken}

/-- The last character of the specifiers is no word character. -/
theorem TopLevel.before_name (h : p.TopLevel chars row before after) (hlexed : WellLexed row) :
    (textOf (before ++ p.specifiers)).getLast?.any chars.word = false := by
  obtain ⟨c, more, hfirst, -⟩ := h.wellFormed.first
  obtain ⟨init, token, hlast⟩ : ∃ init token, p.specifiers = init ++ [token] := by
    rw [hfirst]
    exact ⟨_, _, (List.dropLast_append_getLast (List.cons_ne_nil (.code c) more)).symm⟩
  have htext : (textOf (before ++ p.specifiers)).getLast? = token.text.getLast? := by
    rw [hlast, textOf_append, textOf_append, textOf_cons, textOf_nil, List.append_nil, ← List.append_assoc,
      List.getLast?_append_of_ne_nil _ token.text_ne_nil]
  have hmarks : ∀ c ∈ ['"', '\'', '/'], chars.word c = false := by
    simp only [List.mem_cons, List.not_mem_nil, or_false]
    rintro c (rfl | rfl | rfl) <;> exact chars.word_ascii _ (by decide)
  have hrow : row = before ++ (init ++ (token :: (p.declarator ++ after))) := by
    rw [h.row_eq, tokens, hlast]
    simp
  rw [hrow] at hlexed
  obtain ⟨hformed, hfits, -⟩ := WellLexed.of_append (WellLexed.of_append hlexed)
  rw [htext]
  cases token with
  | code c => exact h.wellFormed.last c (by rw [hlast, List.getLast?_concat])
  | literal quote pieces =>
    have hquote : (CToken.literal quote pieces).text.getLast? = some quote := by
      rw [CToken.text, ← List.cons_append, List.getLast?_concat]
    rw [hquote]
    rcases hformed.1 with rfl | rfl
    · exact hmarks _ (by decide)
    · exact hmarks _ (by decide)
  | lineComment body =>
    -- a word cannot follow a line comment
    obtain ⟨d, name, hname⟩ := List.exists_cons_of_ne_nil h.wellFormed.name_ne_nil
    have hword := h.wellFormed.word d (hname ▸ List.mem_cons_self)
    have hhead : textOf (p.declarator ++ after) = d :: textOf (name.map .code ++ (p.gap ++ .code '(' ::
        (p.rest ++ [.code ';'])) ++ after) := by
      rw [declarator, hname]
      rfl
    rw [CToken.Fits, hhead] at hfits
    rcases hfits with h | h
    · cases h
    · obtain rfl : d = '\n' := Option.some.inj h
      rw [chars.word_ascii _ (by decide)] at hword
      exact absurd hword (by decide)
  | blockComment body =>
    have hslash : (CToken.blockComment body).text.getLast? = some '/' := by
      have hsplit : (CToken.blockComment body).text = '/' :: '*' :: (body ++ ['*']) ++ ['/'] := by simp [CToken.text]
      rw [hsplit, List.getLast?_concat]
    rw [hslash]
    exact hmarks _ (by decide)

/-- Where a prototype's name stands there is no brace open. -/
theorem TopLevel.depth (h : p.TopLevel chars row before after) :
    depthAfter 0 (rows (before ++ p.specifiers)) = 0 := by
  have hflat : ∀ piece ∈ rows p.specifiers, piece.2 = 0 := by
    intro piece hpiece
    obtain ⟨token, htoken, rfl⟩ := List.mem_map.mp hpiece
    exact h.wellFormed.specifiers.braces token htoken
  rw [rows_append, depthAfter_append, h.begins.1, (depthsBefore_flat 0 hflat).1]

end Prototype

end Assure.Library
