import Assure.Library.Blanks
import Assure.Library.Lines

/-!
# What a line of Rust imports

A line is read into words, `::` and symbols, without its blanks and comments. A `use` binds the last segment of
a path, or the name after `as`; `self` stands for the path around it, `as _` and `*` bind no name of their own,
and groups may stand in groups. A `type` binds the name after it.
-/

namespace Assure.Library

/-- A token of a line. -/
inductive UseToken
  | word (text : List Char)
  | colons
  | sym (c : Char)
  deriving DecidableEq

/-- The word of a token. -/
def UseToken.word? : UseToken → Option (List Char)
  | .word text => some text
  | _ => none

/-! ## Tokens -/

/-- Where the reader is. -/
inductive LexMode
  | idle
  | word (text : List Char)
  | colon
  | slash
  | line
  | block
  | star
  deriving DecidableEq

namespace LexMode

variable (chars : CharClass)

/-- What is left at the end. -/
def pending : LexMode → List UseToken
  | .word text => [.word text]
  | .colon => [.sym ':']
  | .slash => [.sym '/']
  | _ => []

/-- A character between tokens. -/
def start (c : Char) : List UseToken × LexMode :=
  if chars.space c then ([], .idle)
  else if chars.word c then ([], .word [c])
  else if c = ':' then ([], .colon)
  else if c = '/' then ([], .slash)
  else ([.sym c], .idle)

/-- One character. -/
def next : LexMode → Char → List UseToken × LexMode
  | .idle, c => start chars c
  | .word text, c =>
    if chars.word c then ([], .word (text ++ [c])) else (.word text :: (start chars c).1, (start chars c).2)
  | .colon, c => if c = ':' then ([.colons], .idle) else (.sym ':' :: (start chars c).1, (start chars c).2)
  | .slash, c =>
    if c = '/' then ([], .line)
    else if c = '*' then ([], .block)
    else (.sym '/' :: (start chars c).1, (start chars c).2)
  | .line, c => ([], if c = '\n' then .idle else .line)
  | .block, c => ([], if c = '*' then .star else .block)
  | .star, c => ([], if c = '/' then .idle else if c = '*' then .star else .block)

/-- The tokens from a mode on. -/
def lexFrom : LexMode → List Char → List UseToken
  | mode, [] => mode.pending
  | mode, c :: rest => (mode.next chars c).1 ++ lexFrom (mode.next chars c).2 rest

/-- Where the reader is after a text. -/
def after (mode : LexMode) (text : List Char) : LexMode := text.foldl (fun mode c => (mode.next chars c).2) mode

/-- Neither in a comment nor after a slash. -/
def Plain : LexMode → Prop
  | .idle | .word _ | .colon => True
  | _ => False

instance : ∀ mode : LexMode, Decidable mode.Plain
  | .idle | .word _ | .colon => .isTrue trivial
  | .slash | .line | .block | .star => .isFalse id

end LexMode

/-- **The tokens of a text.** -/
def lexUses (chars : CharClass) (text : List Char) : List UseToken := LexMode.lexFrom chars .idle text

/-- **No comment is open at the end of a text.** -/
def Closes (chars : CharClass) (text : List Char) : Prop := (LexMode.after chars .idle text).Plain

instance (chars : CharClass) (text : List Char) : Decidable (Closes chars text) :=
  inferInstanceAs (Decidable (LexMode.Plain _))

/-! ## Imports -/

/-- What an import binds: a name, nothing (`as _`), or whatever there is (`*`). -/
inductive Binding
  | name (text : List Char)
  | anonymous
  | everything
  deriving DecidableEq

/-- **An import**: the segments of its path, and what it binds. -/
structure Import where
  path : List (List Char)
  binding : Binding
  deriving DecidableEq

/-- The name an import binds. -/
def Import.name? (i : Import) : Option (List Char) :=
  match i.binding with
  | .name text => some text
  | _ => none

/-- The words of some tokens. -/
def wordsOf (tokens : List UseToken) : List (List Char) := tokens.filterMap UseToken.word?

/-- **One import of a `use`**, in a group after the path `outer`. -/
def importOf (outer : List (List Char)) (tokens : List UseToken) : Import :=
  let words := wordsOf tokens
  let full := outer ++ words.takeWhile (· ≠ ['a', 's'])
  let path := if full.getLast? = some ['s', 'e', 'l', 'f'] then full.dropLast else full
  { path := path
    binding :=
      if .sym '*' ∈ tokens then .everything
      else
        match (words.dropWhile (· ≠ ['a', 's'])).getLast? with
        | some name => if name = ['_'] then .anonymous else .name name
        | none => (path.getLast?.map Binding.name).getD .anonymous }

/-- The import that some tokens are, where there are any. -/
def importOf? (outer : List (List Char)) (tokens : List UseToken) : List Import :=
  if tokens = [] then [] else [importOf outer tokens]

/-- The imports of a tree of paths: the paths around the groups that are open, and the tokens since the last of
`{`, `,` and `}`. -/
def treeImports : List (List (List Char)) → List UseToken → List UseToken → List Import
  | outer, tokens, [] => importOf? (outer.headD []) tokens
  | outer, tokens, token :: rest =>
    if token = .sym '{' then treeImports ((outer.headD [] ++ wordsOf tokens) :: outer) [] rest
    else if token = .sym '}' then importOf? (outer.headD []) tokens ++ treeImports outer.tail [] rest
    else if token = .sym ',' then importOf? (outer.headD []) tokens ++ treeImports outer [] rest
    else treeImports outer (tokens ++ [token]) rest

/-- An item without its attributes. -/
def skipAttributes : Nat → List UseToken → List UseToken
  | _, [] => []
  | 0, token :: rest =>
    if token = .sym '#' then skipAttributes 0 rest
    else if token = .sym '[' then skipAttributes 1 rest
    else token :: rest
  | depth + 1, token :: rest =>
    if token = .sym ']' then skipAttributes depth rest
    else if token = .sym '[' then skipAttributes (depth + 2) rest
    else skipAttributes (depth + 1) rest

/-- An item without its visibility. -/
def skipVisibility : List UseToken → List UseToken
  | .word ['p', 'u', 'b'] :: .sym '(' :: rest => (rest.dropWhile (· ≠ .sym ')')).tail
  | .word ['p', 'u', 'b'] :: rest => rest
  | rest => rest

/-- An item from its keyword on. -/
def itemBody (tokens : List UseToken) : List UseToken := skipVisibility (skipAttributes 0 tokens)

/-- A `use` or a `type`. -/
def isImport (tokens : List UseToken) : Bool :=
  (itemBody tokens).head? = some (.word ['u', 's', 'e']) || (itemBody tokens).head? = some (.word ['t', 'y', 'p', 'e'])

/-- **What an item imports.** -/
def itemImports (tokens : List UseToken) : List Import :=
  match itemBody tokens with
  | .word ['u', 's', 'e'] :: rest => treeImports [] [] rest
  | .word ['t', 'y', 'p', 'e'] :: .word name :: _ => [⟨[], .name name⟩]
  | _ => []

/-- The items of a line. -/
def lineItems (chars : CharClass) (line : List Char) : List (List UseToken) := (lexUses chars line).splitOn (.sym ';')

/-! ## Tokens of parts of a text -/

section Lex

variable {chars : CharClass}

/-- **Tokens end at a symbol or a blank** behind the comments. -/
theorem lexFrom_append {mode : LexMode} {text : List Char} (hmode : (mode.after chars text).Plain) {c : Char}
    (hword : chars.word c = false) (hcolon : c ≠ ':') (hslash : c ≠ '/') (rest : List Char) :
    LexMode.lexFrom chars mode (text ++ c :: rest) =
      LexMode.lexFrom chars mode text ++
        ((if chars.space c then [] else [.sym c]) ++ LexMode.lexFrom chars .idle rest) := by
  induction text generalizing mode with
  | nil =>
    have hstart : LexMode.start chars c = (if chars.space c then [] else [.sym c], .idle) := by
      unfold LexMode.start
      split
      · rfl
      · simp [hword]
    cases mode with
    | idle => simp [LexMode.lexFrom, LexMode.next, LexMode.pending, hstart]
    | word w => simp [LexMode.lexFrom, LexMode.next, LexMode.pending, hstart, hword]
    | colon => simp [LexMode.lexFrom, LexMode.next, LexMode.pending, hstart, hcolon]
    | _ => exact hmode.elim
  | cons d text ih => rw [List.cons_append, LexMode.lexFrom, LexMode.lexFrom, ih hmode, List.append_assoc]

/-- Without a slash there is no comment. -/
theorem plain_after {mode : LexMode} (hmode : mode.Plain) {text : List Char} (htext : '/' ∉ text) :
    (mode.after chars text).Plain := by
  induction text generalizing mode with
  | nil => exact hmode
  | cons d text ih =>
    have hd : d ≠ '/' := fun h => htext (h ▸ List.mem_cons_self)
    have hstart : (LexMode.start chars d).2.Plain := by
      unfold LexMode.start
      repeat' split
      all_goals trivial
    have hnext : (mode.next chars d).2.Plain := by
      cases mode with
      | idle => exact hstart
      | word w =>
        rw [LexMode.next]
        split
        · trivial
        · exact hstart
      | colon =>
        rw [LexMode.next]
        split
        · trivial
        · exact hstart
      | _ => exact hmode.elim
    exact ih hnext fun h => htext (List.mem_cons_of_mem d h)

/-- A text without a slash leaves no comment open. -/
theorem closes_of_notMem {text : List Char} (h : '/' ∉ text) : Closes chars text :=
  @plain_after chars .idle trivial text h

/-- A symbol behind a text is a token of its own. -/
theorem lexUses_symbol {text : List Char} (htext : Closes chars text) {c : Char} (hword : chars.word c = false)
    (hspace : chars.space c = false) (hcolon : c ≠ ':') (hslash : c ≠ '/') (rest : List Char) :
    lexUses chars (text ++ c :: rest) = lexUses chars text ++ .sym c :: lexUses chars rest := by
  rw [lexUses, @lexFrom_append chars .idle _ htext c hword hcolon hslash, if_neg (by rw [hspace]; decide)]
  rfl

/-- A blank is no character of a word. -/
theorem not_word_of_space {c : Char} (h : chars.space c = true) : chars.word c = false := by
  by_contra hword
  rw [chars.disjoint c (Bool.not_eq_false _ ▸ hword)] at h
  exact Bool.false_ne_true h

/-- A blank is none of the other characters of ASCII. -/
theorem ne_of_space {c d : Char} (h : chars.space c = true) (hd : d.toNat < 128)
    (hspace : (9 ≤ d.toNat && d.toNat ≤ 13 || 28 ≤ d.toNat && d.toNat ≤ 32) = false) : c ≠ d := by
  rintro rfl
  rw [chars.space_ascii c hd, hspace] at h
  exact Bool.false_ne_true h

/-- A blank behind a text only ends the word before it. -/
theorem lexUses_blank {text : List Char} (htext : Closes chars text) {c : Char} (hspace : chars.space c = true)
    (rest : List Char) : lexUses chars (text ++ c :: rest) = lexUses chars text ++ lexUses chars rest := by
  have hcolon : c ≠ ':' := ne_of_space hspace (by decide) (by decide)
  have hslash : c ≠ '/' := ne_of_space hspace (by decide) (by decide)
  rw [lexUses, @lexFrom_append chars .idle _ htext c (not_word_of_space hspace) hcolon hslash, if_pos hspace]
  rfl

/-- Blanks before a text say nothing. -/
theorem lexUses_blanks {blanks : List Char} (h : ∀ c ∈ blanks, chars.space c = true) (rest : List Char) :
    lexUses chars (blanks ++ rest) = lexUses chars rest := by
  induction blanks with
  | nil => rfl
  | cons c blanks ih =>
    rw [List.cons_append]
    refine (@lexUses_blank chars [] trivial c (h c List.mem_cons_self) _).trans ?_
    exact ih fun d hd => h d (List.mem_cons_of_mem c hd)

/-- Nor do blanks after it. -/
theorem lexUses_append_blanks {text : List Char} (htext : Closes chars text) {blanks : List Char}
    (h : ∀ c ∈ blanks, chars.space c = true) : lexUses chars (text ++ blanks) = lexUses chars text := by
  cases blanks with
  | nil => rw [List.append_nil]
  | cons c blanks =>
    have hblanks := @lexUses_blanks chars blanks (fun d hd => h d (List.mem_cons_of_mem c hd)) []
    rw [List.append_nil] at hblanks
    rw [lexUses_blank htext (h c List.mem_cons_self), hblanks]
    exact List.append_nil _

/-- **A text without the blanks around it.** -/
theorem lexUses_stripBlanks {text : List Char} (htext : Closes chars (stripBlanks chars text)) :
    lexUses chars (stripBlanks chars text) = lexUses chars text := by
  obtain ⟨front, back, hfront, hback, hsplit⟩ := @exists_stripBlanks chars text
  nth_rewrite 2 [hsplit]
  rw [List.append_assoc, lexUses_blanks hfront, lexUses_append_blanks htext hback]

/-- **A word.** -/
theorem lexUses_word {text : List Char} (hne : text ≠ []) (h : ∀ c ∈ text, chars.word c = true) :
    lexUses chars text = [.word text] := by
  have hmore : ∀ (front back : List Char), (∀ c ∈ back, chars.word c = true) →
      LexMode.lexFrom chars (.word front) back = [.word (front ++ back)] := by
    intro front back
    induction back generalizing front with
    | nil => exact fun _ => by rw [List.append_nil]; rfl
    | cons c back ih =>
      intro hback
      rw [LexMode.lexFrom, LexMode.next, if_pos (hback c List.mem_cons_self), List.nil_append,
        ih _ fun d hd => hback d (List.mem_cons_of_mem c hd), List.append_assoc]
      rfl
  obtain ⟨c, back, rfl⟩ := List.exists_cons_of_ne_nil hne
  have hc := h c List.mem_cons_self
  rw [lexUses, LexMode.lexFrom, LexMode.next, LexMode.start, if_neg (by rw [chars.disjoint c hc]; decide), if_pos hc]
  exact hmore [c] back fun d hd => h d (List.mem_cons_of_mem c hd)

/-- A symbol that one character gives is that character, or was there before. -/
theorem sym_next {mode : LexMode} {d c : Char} :
    (.sym c ∈ (mode.next chars d).1 → c = d ∨ .sym c ∈ mode.pending) ∧
      (.sym c ∈ (mode.next chars d).2.pending → c = d) := by
  have hstart : (UseToken.sym c ∈ (LexMode.start chars d).1 → c = d) ∧
      (UseToken.sym c ∈ (LexMode.start chars d).2.pending → c = d) := by
    unfold LexMode.start
    repeat' split
    all_goals simp_all [LexMode.pending]
  have hafter : ∀ {x : Char}, UseToken.sym c ∈ .sym x :: (LexMode.start chars d).1 →
      c = d ∨ UseToken.sym c ∈ [UseToken.sym x] := by
    intro x h
    rcases List.mem_cons.mp h with h | h
    · exact .inr (List.mem_singleton.mpr h)
    · exact .inl (hstart.1 h)
  cases mode with
  | idle => exact ⟨fun h => .inl (hstart.1 h), hstart.2⟩
  | word w =>
    rw [LexMode.next]
    split
    · simp [LexMode.pending]
    · refine ⟨fun h => .inl (hstart.1 ?_), hstart.2⟩
      simpa using h
  | colon =>
    rw [LexMode.next]
    split
    · simp [LexMode.pending]
    · exact ⟨hafter, hstart.2⟩
  | slash =>
    rw [LexMode.next]
    split
    · simp [LexMode.pending]
    · split
      · simp [LexMode.pending]
      · exact ⟨hafter, hstart.2⟩
  | line => simp only [LexMode.next]; split <;> simp [LexMode.pending]
  | block => simp only [LexMode.next]; split <;> simp [LexMode.pending]
  | star =>
    simp only [LexMode.next]
    split
    · simp [LexMode.pending]
    · split <;> simp [LexMode.pending]

/-- A symbol of the tokens stands in the text. -/
theorem mem_of_sym_mem_lexFrom {mode : LexMode} {text : List Char} {c : Char}
    (h : .sym c ∈ LexMode.lexFrom chars mode text) : c ∈ text ∨ .sym c ∈ mode.pending := by
  induction text generalizing mode with
  | nil => exact .inr h
  | cons d text ih =>
    rw [LexMode.lexFrom, List.mem_append] at h
    rcases h with h | h
    · rcases sym_next.1 h with rfl | h
      · exact .inl List.mem_cons_self
      · exact .inr h
    · rcases ih h with h | h
      · exact .inl (List.mem_cons_of_mem d h)
      · exact .inl (by rw [sym_next.2 h]; exact List.mem_cons_self)

/-- A symbol that is not in the text is not among its tokens. -/
theorem sym_notMem_lexUses {text : List Char} {c : Char} (h : c ∉ text) : .sym c ∉ lexUses chars text := by
  intro hmem
  rcases mem_of_sym_mem_lexFrom hmem with hmem | hmem
  · exact h hmem
  · cases hmem

end Lex

/-! ## Imports of a group -/

/-- The symbols that shape a tree of paths. -/
def shapes : List UseToken := [.sym '{', .sym '}', .sym ',']

/-- Tokens of one import are put together. -/
theorem treeImports_append {outer : List (List (List Char))} {tokens : List UseToken} {front : List UseToken}
    (h : ∀ token ∈ front, token ∉ shapes) (rest : List UseToken) :
    treeImports outer tokens (front ++ rest) = treeImports outer (tokens ++ front) rest := by
  induction front generalizing tokens with
  | nil => rw [List.append_nil]; rfl
  | cons token front ih =>
    have htoken : token ∉ shapes := h token List.mem_cons_self
    simp only [shapes, List.mem_cons, List.not_mem_nil, or_false, not_or] at htoken
    rw [List.cons_append, treeImports, if_neg htoken.1, if_neg htoken.2.1, if_neg htoken.2.2,
      ih fun t ht => h t (List.mem_cons_of_mem token ht), List.append_assoc]
    rfl

section Groups

variable {chars : CharClass}

/-- The characters that a path and the parts of a group have nothing to do with. -/
def groupChars : List Char := ['{', '}', ',', ';', '/']

/-- A text without the characters that make up groups has none of their tokens. -/
theorem notMem_shapes {text : List Char} (h : ∀ c ∈ text, c ∉ groupChars) :
    ∀ token ∈ lexUses chars text, token ∉ shapes := by
  have hchar : ∀ {c : Char}, c ∈ groupChars → .sym c ∉ lexUses chars text := fun hc =>
    sym_notMem_lexUses fun hmem => h _ hmem hc
  intro token htoken hshape
  simp only [shapes, List.mem_cons, List.not_mem_nil, or_false] at hshape
  rcases hshape with rfl | rfl | rfl
  · exact hchar (by simp [groupChars]) htoken
  · exact hchar (by simp [groupChars]) htoken
  · exact hchar (by simp [groupChars]) htoken

/-- Which characters of ASCII belong to words is fixed. -/
theorem not_word_ascii {c : Char} (h : c.toNat < 128) (hc : (c.isAlphanum || c == '_') = false) :
    chars.word c = false := (chars.word_ascii c h).trans hc

/-- Which characters of ASCII are blanks is fixed. -/
theorem not_space_ascii {c : Char} (h : c.toNat < 128)
    (hc : (9 ≤ c.toNat && c.toNat ≤ 13 || 28 ≤ c.toNat && c.toNat ≤ 32) = false) : chars.space c = false :=
  (chars.space_ascii c h).trans hc

/-- A symbol ends what is before it. -/
theorem after_append_cons {mode : LexMode} {text : List Char} (hmode : (mode.after chars text).Plain) {c : Char}
    (hword : chars.word c = false) (hcolon : c ≠ ':') (hslash : c ≠ '/') (rest : List Char) :
    mode.after chars (text ++ c :: rest) = LexMode.idle.after chars rest := by
  have hstart : (LexMode.start chars c).2 = .idle := by
    unfold LexMode.start
    split
    · rfl
    · simp [hword]
  have hnext : ∀ {mode : LexMode}, mode.Plain → (mode.next chars c).2 = .idle := by
    intro mode hplain
    cases mode with
    | idle => exact hstart
    | word w =>
      rw [LexMode.next, if_neg (by rw [hword]; exact Bool.false_ne_true)]
      exact hstart
    | colon =>
      rw [LexMode.next, if_neg hcolon]
      exact hstart
    | _ => exact hplain.elim
  rw [LexMode.after, List.foldl_append, List.foldl_cons]
  exact congrArg (LexMode.after chars · rest) (hnext hmode)

/-- Behind a symbol, whether a comment is left open is decided anew. -/
theorem closes_append_cons {text : List Char} (htext : Closes chars text) {c : Char} (hword : chars.word c = false)
    (hcolon : c ≠ ':') (hslash : c ≠ '/') {rest : List Char} : Closes chars (text ++ c :: rest) ↔ Closes chars rest := by
  rw [Closes, Closes, after_append_cons htext hword hcolon hslash]

/-- The parts of a list are closed, and so is the list. -/
theorem closes_intercalate {parts : List (List Char)} (h : ∀ part ∈ parts, Closes chars part) :
    Closes chars ([','].intercalate parts) := by
  induction parts with
  | nil => exact trivial
  | cons part parts ih =>
    cases parts with
    | nil =>
      rw [List.intercalate_singleton]
      exact h part List.mem_cons_self
    | cons next parts =>
      rw [List.intercalate_cons_cons, List.append_assoc, List.singleton_append]
      refine (closes_append_cons (h part List.mem_cons_self) (not_word_ascii (by decide) (by decide)) (by decide)
        (by decide)).mpr ?_
      exact ih fun p hp => h p (List.mem_cons_of_mem part hp)

/-- Behind a blank as well. -/
theorem closes_append_blank {text : List Char} (htext : Closes chars text) {c : Char} (hspace : chars.space c = true)
    {rest : List Char} : Closes chars (text ++ c :: rest) ↔ Closes chars rest :=
  closes_append_cons htext (not_word_of_space hspace) (ne_of_space hspace (by decide) (by decide))
    (ne_of_space hspace (by decide) (by decide))

/-- Blanks in front do not open a comment. -/
theorem closes_blanks {blanks rest : List Char} (h : ∀ c ∈ blanks, chars.space c = true) :
    Closes chars (blanks ++ rest) ↔ Closes chars rest := by
  induction blanks with
  | nil => exact Iff.rfl
  | cons c blanks ih =>
    have hc := @closes_append_blank chars [] trivial c (h c List.mem_cons_self) (blanks ++ rest)
    exact hc.trans (ih fun d hd => h d (List.mem_cons_of_mem c hd))

/-- **The tokens of a list** are those of its parts, with commas between them. -/
theorem lexUses_intercalate {parts : List (List Char)} (h : ∀ part ∈ parts, Closes chars part) :
    lexUses chars ([','].intercalate parts) = [.sym ','].intercalate (parts.map (lexUses chars)) := by
  induction parts with
  | nil => rfl
  | cons part parts ih =>
    have hparts := ih fun p hp => h p (List.mem_cons_of_mem part hp)
    cases parts with
    | nil => rw [List.map_singleton, List.intercalate_singleton, List.intercalate_singleton]
    | cons next parts =>
      have hcomma : lexUses chars (part ++ ',' :: [','].intercalate (next :: parts)) =
          lexUses chars part ++ .sym ',' :: lexUses chars ([','].intercalate (next :: parts)) :=
        lexUses_symbol (h part List.mem_cons_self) (not_word_ascii (by decide) (by decide))
          (not_space_ascii (by decide) (by decide)) (by decide) (by decide) _
      rw [List.intercalate_cons_cons, List.append_assoc, List.singleton_append, hcomma, hparts]
      simp only [List.map_cons, List.intercalate_cons_cons, List.append_assoc, List.singleton_append]

/-- **The imports of a group** are those of its parts. -/
theorem treeImports_group (path : List (List Char)) {parts : List (List Char)}
    (hcloses : ∀ part ∈ parts, Closes chars part)
    (h : ∀ part ∈ parts, ∀ token ∈ lexUses chars part, token ∉ shapes) :
    treeImports [path] [] (lexUses chars ([','].intercalate parts) ++ [.sym '}']) =
      parts.flatMap fun part => importOf? path (lexUses chars part) := by
  rw [lexUses_intercalate hcloses]
  clear hcloses
  have hclose : ∀ {part : List Char}, (∀ token ∈ lexUses chars part, token ∉ shapes) →
      treeImports [path] [] (lexUses chars part ++ [.sym '}']) = importOf? path (lexUses chars part) := by
    intro part hpart
    rw [treeImports_append hpart]
    exact List.append_nil _
  induction parts with
  | nil => rfl
  | cons part parts ih =>
    have hpart := h part List.mem_cons_self
    have hparts := ih fun p hp => h p (List.mem_cons_of_mem part hp)
    cases parts with
    | nil => rw [List.map_singleton, List.intercalate_singleton, hclose hpart, List.flatMap_singleton]
    | cons next parts =>
      rw [List.map_cons, List.map_cons, List.intercalate_cons_cons, List.append_assoc, List.append_assoc,
        treeImports_append hpart, List.flatMap_cons, ← hparts]
      rfl

/-- A `use` of a group, from the keyword on. -/
theorem treeImports_use {path body : List Char} (hpath : ∀ c ∈ path, c ∉ groupChars) (rest : List UseToken) :
    treeImports [] [] (lexUses chars path ++ .sym '{' :: (lexUses chars body ++ rest)) =
      treeImports [wordsOf (lexUses chars path)] [] (lexUses chars body ++ rest) := by
  rw [treeImports_append (notMem_shapes hpath)]
  rfl

end Groups

/-! ## Trees of paths -/

/-- **A tree of paths**: a name, also under another name, everything, a path before a tree, or a group of trees. -/
inductive IsTree : List UseToken → Prop
  | name (word : List Char) : IsTree [.word word]
  | renamed (word name : List Char) : IsTree [.word word, .word ['a', 's'], .word name]
  | everything : IsTree [.sym '*']
  | path (segment : List Char) {tree : List UseToken} (h : IsTree tree) : IsTree (.word segment :: .colons :: tree)
  | group {trees : List (List UseToken)} (h : ∀ tree ∈ trees, IsTree tree) {trail : List UseToken}
      (htrail : trail = [] ∨ trail = [.sym ','] ∧ trees ≠ []) :
      IsTree (.sym '{' :: ([.sym ','].intercalate trees ++ (trail ++ [.sym '}'])))

/-- **The parts of a group**: trees, and nothing behind the last comma. -/
def AreParts (parts : List (List UseToken)) : Prop := (∀ part ∈ parts, part ≠ [] → IsTree part) ∧ [] ∉ parts.dropLast

/-- A tree of a use statement has at least one token. -/
theorem IsTree.ne_nil {tree : List UseToken} (h : IsTree tree) : tree ≠ [] := by
  cases h <;> exact List.cons_ne_nil _ _

/-- Trees with as many opening as closing braces, joined by commas, have as many of both. -/
theorem count_intercalate {trees : List (List UseToken)}
    (h : ∀ tree ∈ trees, tree.count (.sym '{') = tree.count (.sym '}')) :
    ([.sym ','].intercalate trees).count (.sym '{') = ([.sym ','].intercalate trees).count (.sym '}') := by
  induction trees with
  | nil => rfl
  | cons tree trees ih =>
    have htree := h tree List.mem_cons_self
    have hrest := ih fun t ht => h t (List.mem_cons_of_mem tree ht)
    cases trees with
    | nil => simpa using htree
    | cons next trees =>
      rw [List.intercalate_cons_cons, List.count_append, List.count_append, List.count_append, List.count_append,
        htree, hrest]
      rfl

/-- Braces come in pairs. -/
theorem IsTree.count_braces {tree : List UseToken} (h : IsTree tree) :
    tree.count (.sym '{') = tree.count (.sym '}') := by
  induction h with
  | name word => rfl
  | renamed word name => rfl
  | everything => rfl
  | path segment _ ih => simpa using ih
  | @group trees _ trail htrail ih =>
    have htrees := count_intercalate ih
    have htrail' : trail.count (.sym '{') = trail.count (.sym '}') := by
      rcases htrail with rfl | ⟨rfl, -⟩ <;> rfl
    simp only [List.count_cons, List.count_append, htrees, htrail']
    simp [Nat.add_assoc]

/-- Commas stand in braces. -/
theorem IsTree.comma_notMem {tree : List UseToken} (h : IsTree tree) (hopen : .sym '{' ∉ tree) : .sym ',' ∉ tree := by
  induction h with
  | name word => simp
  | renamed word name => simp
  | everything => simp
  | path segment _ ih =>
    simp only [List.mem_cons, not_or] at hopen
    simpa using ih hopen.2.2
  | group => exact absurd List.mem_cons_self hopen

/-- **A group is made of parts.** -/
theorem AreParts.isTree {parts : List (List UseToken)} (h : AreParts parts) :
    IsTree (.sym '{' :: ([.sym ','].intercalate parts ++ [.sym '}'])) := by
  obtain ⟨htrees, hinit⟩ := h
  rcases List.eq_nil_or_concat parts with rfl | ⟨init, last, rfl⟩
  · exact @IsTree.group [] (fun _ h => absurd h List.not_mem_nil) [] (.inl rfl)
  · rw [List.concat_eq_append] at htrees hinit ⊢
    rw [List.dropLast_concat] at hinit
    have hmem : ∀ tree ∈ init, IsTree tree := fun tree htree =>
      htrees tree (List.mem_append_left _ htree) fun hnil => hinit (hnil ▸ htree)
    by_cases hlast : last = []
    · subst hlast
      by_cases hnil : init = []
      · subst hnil
        exact @IsTree.group [] hmem [] (.inl rfl)
      · rw [intercalate_append hnil (List.cons_ne_nil _ _), List.intercalate_singleton, List.append_nil,
          List.append_assoc]
        exact .group hmem (.inr ⟨rfl, hnil⟩)
    · refine @IsTree.group _ (fun tree htree => ?_) [] (.inl rfl)
      rcases List.mem_append.mp htree with htree | htree
      · exact hmem tree htree
      · obtain rfl := List.mem_singleton.mp htree
        exact htrees tree (List.mem_append_right _ List.mem_cons_self) hlast

/-- **The parts of a group without groups** are what stands between its commas. -/
theorem IsTree.areParts {tokens : List UseToken} (h : IsTree (.sym '{' :: (tokens ++ [.sym '}'])))
    (hopen : .sym '{' ∉ tokens) : AreParts (tokens.splitOn (.sym ',')) := by
  generalize hwhole : UseToken.sym '{' :: (tokens ++ [.sym '}']) = whole at h
  cases h with
  | name | renamed | everything | path => simp at hwhole
  | @group trees htrees trail htrail =>
    obtain rfl : tokens = [.sym ','].intercalate trees ++ trail := by
      rw [← List.append_assoc] at hwhole
      exact List.append_cancel_right (List.cons.inj hwhole).2
    have hcomma : ∀ tree ∈ trees, .sym ',' ∉ tree := by
      intro tree htree
      exact (htrees tree htree).comma_notMem fun hmem =>
        hopen (List.mem_append_left _ (mem_intercalate_of_mem htree hmem))
    rcases htrail with rfl | ⟨rfl, hne⟩
    · rw [List.append_nil]
      by_cases hnil : trees = []
      · subst hnil
        exact ⟨by simp [List.splitOn_nil], by simp [List.splitOn_nil]⟩
      · rw [List.splitOn_intercalate _ hcomma hnil]
        exact ⟨fun tree htree _ => htrees tree htree, fun hmem =>
          (htrees [] (List.mem_of_mem_dropLast hmem)).ne_nil rfl⟩
    · have hjoin : [UseToken.sym ','].intercalate trees ++ [.sym ','] = [.sym ','].intercalate (trees ++ [[]]) := by
        rw [intercalate_append hne (List.cons_ne_nil _ _), List.intercalate_singleton, List.append_nil]
      rw [hjoin, List.splitOn_intercalate _ ?_ (by simp)]
      · refine ⟨fun tree htree hne => ?_, fun hmem => ?_⟩
        · rcases List.mem_append.mp htree with htree | htree
          · exact htrees tree htree
          · exact absurd (List.mem_singleton.mp htree) hne
        · rw [List.dropLast_concat] at hmem
          exact (htrees [] hmem).ne_nil rfl
      · intro tree htree
        rcases List.mem_append.mp htree with htree | htree
        · exact hcomma tree htree
        · rw [List.mem_singleton.mp htree]
          exact List.not_mem_nil

/-- **Some of the parts** make up a group as well. -/
theorem AreParts.sublist {parts parts' : List (List UseToken)} (h : AreParts parts) (hsub : parts'.Sublist parts) :
    AreParts parts' := by
  have htail := hsub.reverse.tail
  rw [List.tail_reverse, List.tail_reverse] at htail
  exact ⟨fun part hpart => h.1 part (hsub.subset hpart), fun hmem =>
    h.2 (List.mem_reverse.mp (htail.subset (List.mem_reverse.mpr hmem)))⟩

end Assure.Library
