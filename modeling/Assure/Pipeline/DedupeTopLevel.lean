import Assure.Library.Lines
import Assure.Library.RustUses
import Assure.Library.Taking
import Mathlib.Data.List.Nodup

/-!
# Top-level imports without their duplicates

`dedupe_top_level` goes through the lines of a split file. An unindented `use` or `type` line is read by one of
three patterns; a name that an earlier line has is taken out of the group or with its line. What the patterns
read is not always what the line binds: a group may bind a name under `self` or none with `as _`, and a line that
no pattern reads keeps its names.

What a line binds is read by Rust's rules for use trees, and not by the patterns. With that the
result is an equivalence for lines on which a group is a group (`PlainGroup`); of other lines
nothing is said. That all other lines stay, and that a second pass changes nothing, is proved for
every list of lines.
-/

namespace Assure

open Assure.Library

/-! ## Names -/

/-- `text.split(sep)[-1]`; a separator is passed over character by character. -/
def lastPiece (sep : List Char) : Nat → List Char → List Char → List Char
  | _, piece, [] => piece
  | skip + 1, piece, _ :: rest => lastPiece sep skip piece rest
  | 0, piece, c :: rest =>
    if sep.isPrefixOf (c :: rest) then lastPiece sep (sep.length - 1) [] rest else lastPiece sep 0 (piece ++ [c]) rest

/-- A text, from its end, up to `::`. -/
def upToColons : List Char → List Char
  | [] => []
  | c :: rest => if c = ':' ∧ rest.head? = some ':' then [] else c :: upToColons rest

/-- `" as "` -/
def asBlanks : List Char := [' ', 'a', 's', ' ']

/-- `bind_name` -/
def bindName (chars : CharClass) (item : List Char) : List Char :=
  let item := stripBlanks chars item
  if asBlanks <:+: item then stripBlanks chars (lastPiece asBlanks 0 [] item)
  else stripBlanks chars (upToColons item.reverse).reverse

/-! ## Lines -/

section Patterns

open Pattern

variable (chars : CharClass)

/-- `(pub\s+)?` -/
def pubGroup : Pattern (List Char) :=
  orElse (do
    lit "pub"
    let blanks ← many1 chars.space
    return ['p', 'u', 'b'] ++ blanks) (pure [])

/-- `\s*$` after a `;` -/
def lineDone : Pattern Unit := do
  let _ ← many chars.space
  lit ";"
  let _ ← many chars.space
  fun cursor => if cursor.rest = [] ∨ cursor.rest = ['\n'] then [((), cursor)] else []

/-- `(pub\s+)?use\s+(.+?)::\{([^}]*)\}\s*;\s*$` -/
def useGroup : Pattern (List Char × List Char × List Char) := do
  let vis ← pubGroup chars
  lit "use"
  let _ ← many1 chars.space
  let path ← lazily (many1 (· ≠ '\n'))
  lit "::\x7b"
  let body ← many (· ≠ '}')
  lit "\x7d"
  lineDone chars
  return (vis, path, body)

/-- `(?:pub\s+)?use\s+([\w:]+(?:\s+as\s+\w+)?)\s*;\s*$` -/
def useName : Pattern (List Char) := do
  let _ ← pubGroup chars
  lit "use"
  let _ ← many1 chars.space
  let path ← many1 fun c => chars.word c || c == ':'
  let renamed ← orElse (do
    let before ← many1 chars.space
    lit "as"
    let after ← many1 chars.space
    let name ← many1 chars.word
    return before ++ ['a', 's'] ++ after ++ name) (pure [])
  lineDone chars
  return path ++ renamed

/-- `(?:pub\s+)?type\s+(\w+)\s*=` -/
def typeName : Pattern (List Char) := do
  let _ ← pubGroup chars
  lit "type"
  let _ ← many1 chars.space
  let name ← many1 chars.word
  let _ ← many chars.space
  lit "="
  return name

end Patterns

/-- What is read of a line: a group with its visibility, path and items, a line with one name, or nothing. -/
inductive TopLine
  | group (vis path : List Char) (items : List (List Char))
  | named (name : List Char)
  | other

section Dedupe

variable (chars : CharClass)

/-- `[x.strip() for x in body.split(",") if x.strip()]` -/
def groupItems (body : List Char) : List (List Char) :=
  ((body.splitOn ',').map (stripBlanks chars)).filter (· ≠ [])

/-- What the patterns read. -/
def readTopLine (line : List Char) : TopLine :=
  let t := stripBlanks chars line
  match (useGroup chars).first? t with
  | some (vis, path, body) => .group vis path (groupItems chars body)
  | none =>
    match ((useName chars).first? t).filter (fun path => path.getLast? ≠ some '*') with
    | some path => .named (bindName chars path)
    | none => ((typeName chars).first? t |>.map TopLine.named).getD .other

/-- `f"{vis}use {path}::{{{', '.join(kept)}}};"` -/
def groupText (vis path : List Char) (kept : List (List Char)) : List Char :=
  vis ++ (['u', 's', 'e', ' '] ++ (path ++ ([':', ':', '{'] ++ ([',', ' '].intercalate kept ++ ['}', ';']))))

/-- `ln != ln.lstrip()` -/
def indented (line : List Char) : Bool := line.head?.any chars.space

/-- **One line**: the names that are seen, and what is put out. -/
def dedupeLine (seen : List (List Char)) (line : List Char) : List (List Char) × Option (List Char) :=
  if indented chars line then (seen, some line)
  else
    match readTopLine chars line with
    | .group vis path items =>
      let kept := items.filter fun item => !seen.contains (bindName chars item)
      (seen ++ kept.map (bindName chars), if kept = [] then none else some (groupText vis path kept))
    | .named name => if seen.contains name then (seen, none) else (seen ++ [name], some line)
    | .other => (seen, some line)

/-- The lines that are put out. -/
def dedupeLines : List (List Char) → List (List Char) → List (List Char)
  | _, [] => []
  | seen, line :: lines =>
    (dedupeLine chars seen line).2.toList ++ dedupeLines (dedupeLine chars seen line).1 lines

/-- **`dedupe_top_level`** -/
def dedupeTopLevel (lines : List (List Char)) : List Char := ['\n'].intercalate (dedupeLines chars [] lines)

/-! ## What the lines bind -/

/-- The imports of a top-level line. -/
def topImports (line : List Char) : List Import :=
  if indented chars line then [] else (lineItems chars line).flatMap itemImports

/-- A line that is indented, or neither a `use` nor a `type`. -/
def OtherLine (line : List Char) : Prop :=
  indented chars line = true ∨ ∀ item ∈ lineItems chars line, isImport item = false

instance : DecidablePred (OtherLine chars) := fun _ => inferInstanceAs (Decidable (_ ∨ _))

/-- The names that lines bind. -/
def boundNames (lines : List (List Char)) : List (List Char) :=
  (lines.flatMap (topImports chars)).filterMap Import.name?

/-- The imports that bind no name of their own. -/
def unnamedImports (lines : List (List Char)) : List Import :=
  (lines.flatMap (topImports chars)).filter fun i => i.name? = none

/-- **What is expected**: every name once, the nameless imports and the other lines as they were, and nothing
left to do. -/
structure Deduped (lines out : List (List Char)) : Prop where
  once : ∀ name ∈ boundNames chars lines, (boundNames chars out).count name = 1
  unnamed : unnamedImports chars out = unnamedImports chars lines
  others : out.filter (OtherLine chars ·) = lines.filter (OtherLine chars ·)
  idempotent : dedupeLines chars [] out = out

/-! ## What is kept -/

/-- The names by which the patterns know a line. -/
def writtenNames (line : List Char) : List (List Char) :=
  if indented chars line then []
  else
    match readTopLine chars line with
    | .group _ _ items => items.map (bindName chars)
    | .named name => [name]
    | .other => []

/-- The import of an item after a path. -/
def itemImport (path item : List Char) : List Import :=
  importOf? (wordsOf (lexUses chars (path ++ [':', ':']))) (lexUses chars item)

/-- The imports of a line, each with whether its name is new. -/
def standing (seen : List (List Char)) (line : List Char) : List (Bool × Import) :=
  if indented chars line then []
  else
    match readTopLine chars line with
    | .group _ path items =>
      items.flatMap fun item => (itemImport chars path item).map fun i => (!seen.contains (bindName chars item), i)
    | .named name => (topImports chars line).map fun i => (!seen.contains name, i)
    | .other => (topImports chars line).map fun i => (true, i)

/-- The imports of lines, each with whether the name by which the patterns know it is new: no earlier line that
they read has it. -/
def standings : List (List Char) → List (List Char) → List (Bool × Import)
  | _, [] => []
  | seen, line :: lines => standing chars seen line ++ standings (seen ++ writtenNames chars line) lines

end Dedupe

/-! ## What the patterns take -/

section Reading

open Pattern

variable {chars : CharClass}

/-- Blanks. -/
def Blanks (chars : CharClass) (text : List Char) : Prop := ∀ c ∈ text, chars.space c = true

/-- `pub` and blanks, or nothing. -/
def IsVis (chars : CharClass) (vis : List Char) : Prop :=
  vis = [] ∨ ∃ blanks, blanks ≠ [] ∧ Blanks chars blanks ∧ vis = ['p', 'u', 'b'] ++ blanks

/-- The pattern of a visibility takes a visibility, or nothing. -/
theorem of_mem_pubGroup {cursor : Cursor} {way : List Char × Cursor} (h : way ∈ pubGroup chars cursor) :
    cursor.rest = way.1 ++ way.2.rest ∧ IsVis chars way.1 := by
  rcases mem_orElse.mp h with h | h
  · obtain ⟨first, hfirst, h⟩ := mem_bind.mp h
    obtain ⟨second, hsecond, h⟩ := mem_bind.mp h
    obtain rfl : way = (['p', 'u', 'b'] ++ second.1, second.2) := List.mem_singleton.mp h
    have hpub := of_mem_chars hfirst
    obtain ⟨hrest, hblanks, hne⟩ := of_mem_many1 hsecond
    refine ⟨?_, .inr ⟨second.1, hne, hblanks, rfl⟩⟩
    rw [hpub, hrest, List.append_assoc]
    rfl
  · obtain rfl : way = ([], cursor) := List.mem_singleton.mp h
    exact ⟨rfl, .inl rfl⟩

/-- The end of a statement is a semicolon with nothing but blanks around it. -/
theorem of_mem_lineDone {cursor : Cursor} {way : Unit × Cursor} (h : way ∈ lineDone chars cursor) :
    ∃ before after, Blanks chars before ∧ Blanks chars after ∧ cursor.rest = before ++ ';' :: after := by
  obtain ⟨first, hfirst, h⟩ := mem_bind.mp h
  obtain ⟨second, hsecond, h⟩ := mem_bind.mp h
  obtain ⟨third, hthird, h⟩ := mem_bind.mp h
  obtain ⟨hbefore, hblanks⟩ := of_mem_many hfirst
  have hsemi := of_mem_chars hsecond
  obtain ⟨hafter, hblanks'⟩ := of_mem_many hthird
  refine ⟨first.1, third.1 ++ third.2.rest, hblanks, ?_, ?_⟩
  · split at h
    · rename_i hend
      rcases hend with hend | hend
      · rw [hend, List.append_nil]
        exact hblanks'
      · intro c hc
        rw [hend] at hc
        rcases List.mem_append.mp hc with hc | hc
        · exact hblanks' c hc
        · rw [List.mem_singleton.mp hc, chars.space_ascii '\n' (by decide)]
          decide
    · cases h
  · rw [hbefore, hsemi, hafter]
    rfl

/-- **What a group has taken.** -/
theorem of_mem_useGroup {t vis path body : List Char} {cursor : Cursor}
    (h : ((vis, path, body), cursor) ∈ useGroup chars ⟨none, t⟩) :
    ∃ blanks before after, IsVis chars vis ∧ blanks ≠ [] ∧ Blanks chars blanks ∧ path ≠ [] ∧ '\n' ∉ path ∧
      '}' ∉ body ∧ Blanks chars before ∧ Blanks chars after ∧
      t = vis ++ (['u', 's', 'e'] ++ (blanks ++ (path ++ ([':', ':', '{'] ++ (body ++ '}' :: (before ++ ';' :: after)))))) := by
  obtain ⟨first, hfirst, h⟩ := mem_bind.mp h
  obtain ⟨second, hsecond, h⟩ := mem_bind.mp h
  obtain ⟨third, hthird, h⟩ := mem_bind.mp h
  obtain ⟨fourth, hfourth, h⟩ := mem_bind.mp h
  obtain ⟨fifth, hfifth, h⟩ := mem_bind.mp h
  obtain ⟨sixth, hsixth, h⟩ := mem_bind.mp h
  obtain ⟨seventh, hseventh, h⟩ := mem_bind.mp h
  obtain ⟨eighth, heighth, h⟩ := mem_bind.mp h
  have hvalue : ((vis, path, body), cursor) = ((first.1, fourth.1, sixth.1), eighth.2) := List.mem_singleton.mp h
  simp only [Prod.mk.injEq] at hvalue
  obtain ⟨⟨rfl, rfl, rfl⟩, -⟩ := hvalue
  obtain ⟨hvis, isVis⟩ := of_mem_pubGroup hfirst
  have huse := of_mem_chars hsecond
  obtain ⟨hblanks, isBlanks, hne⟩ := of_mem_many1 hthird
  obtain ⟨hpath, hline, hpathne⟩ := of_mem_many1 (mem_lazily.mp hfourth)
  have hopen := of_mem_chars hfifth
  obtain ⟨hbody, hbrace⟩ := of_mem_many hsixth
  have hclose := of_mem_chars hseventh
  obtain ⟨before, after, hbefore, hafter, hdone⟩ := of_mem_lineDone heighth
  refine ⟨third.1, before, after, isVis, hne, isBlanks, hpathne, fun hmem => ?_, fun hmem => ?_, hbefore, hafter, ?_⟩
  · simpa using hline _ hmem
  · simpa using hbrace _ hmem
  · refine hvis.trans ?_
    rw [huse, hblanks, hpath, hopen, hbody, hclose, hdone]
    rfl

/-- **What a name has taken**, as far as it matters: the keyword stands at the beginning. -/
theorem of_mem_useName {t path : List Char} {cursor : Cursor} (h : (path, cursor) ∈ useName chars ⟨none, t⟩) :
    ∃ vis blanks rest, IsVis chars vis ∧ blanks ≠ [] ∧ Blanks chars blanks ∧
      t = vis ++ (['u', 's', 'e'] ++ (blanks ++ rest)) := by
  obtain ⟨first, hfirst, h⟩ := mem_bind.mp h
  obtain ⟨second, hsecond, h⟩ := mem_bind.mp h
  obtain ⟨third, hthird, h⟩ := mem_bind.mp h
  obtain ⟨hvis, isVis⟩ := of_mem_pubGroup hfirst
  have huse := of_mem_chars hsecond
  obtain ⟨hblanks, isBlanks, hne⟩ := of_mem_many1 hthird
  refine ⟨first.1, third.1, third.2.rest, isVis, hne, isBlanks, hvis.trans ?_⟩
  rw [huse, hblanks]
  rfl

/-- The pattern of a type alias takes a visibility, the keyword and blanks before the name. -/
theorem of_mem_typeName {t name : List Char} {cursor : Cursor} (h : (name, cursor) ∈ typeName chars ⟨none, t⟩) :
    ∃ vis blanks rest, IsVis chars vis ∧ blanks ≠ [] ∧ Blanks chars blanks ∧
      t = vis ++ (['t', 'y', 'p', 'e'] ++ (blanks ++ rest)) := by
  obtain ⟨first, hfirst, h⟩ := mem_bind.mp h
  obtain ⟨second, hsecond, h⟩ := mem_bind.mp h
  obtain ⟨third, hthird, h⟩ := mem_bind.mp h
  obtain ⟨hvis, isVis⟩ := of_mem_pubGroup hfirst
  have htype := of_mem_chars hsecond
  obtain ⟨hblanks, isBlanks, hne⟩ := of_mem_many1 hthird
  refine ⟨first.1, third.1, third.2.rest, isVis, hne, isBlanks, hvis.trans ?_⟩
  rw [htype, hblanks]
  rfl

end Reading

/-! ## Lines with a keyword -/

section Keywords

variable {chars : CharClass}

/-- Letters and digits belong to words. -/
theorem word_of_alphanum {text : List Char} (h : text.all (fun c => c.toNat < 128 && c.isAlphanum) = true) :
    ∀ c ∈ text, chars.word c = true := by
  intro c hc
  obtain ⟨hascii, halpha⟩ := Bool.and_eq_true_iff.mp (List.all_eq_true.mp h c hc)
  rw [chars.word_ascii c (of_decide_eq_true hascii), halpha]
  rfl

/-- A word holds no other character. -/
theorem notMem_of_not_word {text : List Char} (h : ∀ c ∈ text, chars.word c = true) {c : Char}
    (hc : chars.word c = false) : c ∉ text := by
  intro hmem
  rw [h c hmem] at hc
  exact Bool.noConfusion hc

/-- A word before blanks. -/
theorem lexUses_word_blanks {word blanks : List Char} (hne : word ≠ []) (hword : ∀ c ∈ word, chars.word c = true)
    (hblanks : blanks ≠ []) (h : Blanks chars blanks) (rest : List Char) :
    lexUses chars (word ++ (blanks ++ rest)) = .word word :: lexUses chars rest := by
  obtain ⟨b, more, rfl⟩ := List.exists_cons_of_ne_nil hblanks
  have hslash : '/' ∉ word := notMem_of_not_word hword (not_word_ascii (by decide) (by decide))
  rw [List.cons_append, lexUses_blank (closes_of_notMem hslash) (h b List.mem_cons_self),
    lexUses_blanks fun c hc => h c (List.mem_cons_of_mem b hc), lexUses_word hne hword]
  rfl

/-- The tokens of a visibility. -/
def visTokens (vis : List Char) : List UseToken := if vis = [] then [] else [.word ['p', 'u', 'b']]

/-- **A keyword at the beginning.** -/
theorem lexUses_keyword {vis word blanks : List Char} (hvis : IsVis chars vis) (hne : word ≠ [])
    (hword : ∀ c ∈ word, chars.word c = true) (hblanks : blanks ≠ []) (h : Blanks chars blanks) (rest : List Char) :
    lexUses chars (vis ++ (word ++ (blanks ++ rest))) = visTokens vis ++ .word word :: lexUses chars rest := by
  rcases hvis with rfl | ⟨more, hmore, hmores, rfl⟩
  · exact lexUses_word_blanks hne hword hblanks h rest
  · have hpub : ∀ c ∈ ['p', 'u', 'b'], chars.word c = true := word_of_alphanum (by decide)
    rw [List.append_assoc, lexUses_word_blanks (List.cons_ne_nil _ _) hpub hmore hmores,
      lexUses_word_blanks hne hword hblanks h]
    rfl

/-- An item from its keyword on. -/
theorem itemBody_keyword {vis word : List Char} (hword : word ≠ ['p', 'u', 'b']) (rest : List UseToken) :
    itemBody (visTokens vis ++ .word word :: rest) = .word word :: rest := by
  have hkeyword : ∀ rest, skipVisibility (.word word :: rest) = .word word :: rest := by
    intro rest
    unfold skipVisibility
    split
    · rename_i heq
      exact absurd (UseToken.word.inj (List.cons.inj heq).1) hword
    · rename_i heq
      exact absurd (UseToken.word.inj (List.cons.inj heq).1) hword
    · rfl
  unfold itemBody visTokens
  split
  · exact hkeyword rest
  · rfl

/-- Text without a separator goes on in the first part. -/
theorem splitOn_append_of_notMem {α : Type*} [BEq α] [LawfulBEq α] {sep : α} {front : List α} (h : sep ∉ front)
    (rest : List α) :
    ∃ first more, rest.splitOn sep = first :: more ∧ (front ++ rest).splitOn sep = (front ++ first) :: more := by
  induction front with
  | nil =>
    obtain ⟨first, more, hsplit⟩ := List.exists_cons_of_ne_nil (List.splitOn_ne_nil sep rest)
    exact ⟨first, more, hsplit, hsplit⟩
  | cons a front ih =>
    obtain ⟨first, more, hrest, hfront⟩ := ih fun hmem => h (List.mem_cons_of_mem a hmem)
    have ha : (a == sep) = false := beq_false_of_ne fun heq => h (heq ▸ List.mem_cons_self)
    refine ⟨first, more, hrest, ?_⟩
    rw [List.cons_append, List.splitOn_cons_eq_if_modifyHead, ha, hfront]
    rfl

/-- Before the keyword of a statement stands no semicolon. -/
theorem semicolon_notMem_visTokens (vis word : List Char) : .sym ';' ∉ visTokens vis ++ [.word word] := by
  unfold visTokens
  split <;> simp

/-- The keywords of the lines that are read. -/
def IsKeyword (word : List Char) : Prop := word = ['u', 's', 'e'] ∨ word = ['t', 'y', 'p', 'e']

/-- A keyword is a word, and not the one that begins a visibility. -/
theorem IsKeyword.word {word : List Char} (h : IsKeyword word) :
    word ≠ [] ∧ (∀ c ∈ word, chars.word c = true) ∧ word ≠ ['p', 'u', 'b'] := by
  rcases h with rfl | rfl
  · exact ⟨by decide, word_of_alphanum (by decide), by decide⟩
  · exact ⟨by decide, word_of_alphanum (by decide), by decide⟩

/-- A statement begins with its visibility or its keyword, hence with no blank. -/
theorem isVis_head {vis word : List Char} (hvis : IsVis chars vis) (hword : IsKeyword word) (rest : List Char) :
    indented chars (vis ++ (word ++ rest)) = false := by
  have hstart : ∀ {c : Char}, chars.word c = true → ∀ rest, indented chars (c :: rest) = false :=
    fun hc rest => chars.disjoint _ hc
  have hp : chars.word 'p' = true := by rw [chars.word_ascii 'p' (by decide)]; decide
  have hu : chars.word 'u' = true := by rw [chars.word_ascii 'u' (by decide)]; decide
  have ht : chars.word 't' = true := by rw [chars.word_ascii 't' (by decide)]; decide
  rcases hvis with rfl | ⟨blanks, -, -, rfl⟩
  · rcases hword with rfl | rfl
    · exact hstart hu _
    · exact hstart ht _
  · exact hstart hp _

/-- A line that is not indented has blanks only at its end. -/
theorem exists_back {line : List Char} (h : indented chars line = false) :
    ∃ back, Blanks chars back ∧ line = stripBlanks chars line ++ back := by
  obtain ⟨front, back, hfront, hback, hsplit⟩ := @exists_stripBlanks chars line
  cases front with
  | nil => exact ⟨back, hback, hsplit⟩
  | cons c front =>
    rw [hsplit, indented] at h
    exact absurd (hfront c List.mem_cons_self) (by simpa using h)

/-- **A line with a keyword** is none of the other lines. -/
theorem not_otherLine {line vis word blanks rest : List Char} (hindent : indented chars line = false)
    (hvis : IsVis chars vis) (hword : IsKeyword word) (hblanks : blanks ≠ []) (h : Blanks chars blanks)
    (hline : stripBlanks chars line = vis ++ (word ++ (blanks ++ rest))) : ¬ OtherLine chars line := by
  obtain ⟨back, -, hsplit⟩ := exists_back hindent
  obtain ⟨hne, hchars, hpub⟩ := @IsKeyword.word chars word hword
  have htokens : lexUses chars line = (visTokens vis ++ [.word word]) ++ lexUses chars (rest ++ back) := by
    rw [hsplit, hline, List.append_assoc, List.append_assoc, List.append_assoc,
      lexUses_keyword hvis hne hchars hblanks h, List.append_assoc]
    rfl
  obtain ⟨first, more, -, hitems⟩ :=
    splitOn_append_of_notMem (semicolon_notMem_visTokens vis word) (lexUses chars (rest ++ back))
  rintro (hother | hother)
  · rw [hindent] at hother
    exact Bool.noConfusion hother
  · have hitem := hother _ (by rw [lineItems, htokens, hitems]; exact List.mem_cons_self)
    rw [isImport, List.append_assoc, List.singleton_append, itemBody_keyword hpub] at hitem
    rcases hword with rfl | rfl
    · exact absurd hitem (by simp)
    · exact absurd hitem (by simp)

end Keywords

/-! ## The imports of a group -/

section Groups

variable {chars : CharClass}

/-- What is in a joined text is in the separator or in a part. -/
theorem mem_intercalate {α : Type*} {sep : List α} {parts : List (List α)} {a : α} (h : a ∈ sep.intercalate parts) :
    a ∈ sep ∨ ∃ part ∈ parts, a ∈ part := by
  induction parts with
  | nil => cases h
  | cons part parts ih =>
    cases parts with
    | nil => exact .inr ⟨part, List.mem_cons_self, by simpa using h⟩
    | cons next parts =>
      rw [List.intercalate_cons_cons, List.mem_append, List.mem_append] at h
      rcases h with (h | h) | h
      · exact .inr ⟨part, List.mem_cons_self, h⟩
      · exact .inl h
      · rcases ih h with h | ⟨part', hpart', h⟩
        · exact .inl h
        · exact .inr ⟨part', List.mem_cons_of_mem part hpart', h⟩

/-- Blanks have no tokens. -/
theorem lexUses_blanks_nil {blanks : List Char} (h : Blanks chars blanks) : lexUses chars blanks = [] := by
  have hblanks := lexUses_blanks h []
  rw [List.append_nil] at hblanks
  exact hblanks

/-- **The imports of a group on a line** are those of its parts. -/
theorem topImports_group {vis blanks path before after : List Char} {parts : List (List Char)}
    (hvis : IsVis chars vis) (hne : blanks ≠ []) (hblanks : Blanks chars blanks) (hpath : ∀ c ∈ path, c ∉ groupChars)
    (hparts : ∀ part ∈ parts, ∀ c ∈ part, c ∉ groupChars) (hbefore : Blanks chars before)
    (hafter : Blanks chars after) :
    topImports chars (vis ++ (['u', 's', 'e'] ++ (blanks ++ (path ++ ([':', ':', '{'] ++
      ([','].intercalate parts ++ '}' :: (before ++ ';' :: after))))))) =
      parts.flatMap (itemImport chars path) := by
  have hsymbol : ∀ {c : Char} {text : List Char}, '/' ∉ text → c.toNat < 128 →
      (c.isAlphanum || c == '_') = false →
      (9 ≤ c.toNat && c.toNat ≤ 13 || 28 ≤ c.toNat && c.toNat ≤ 32) = false → c ≠ ':' → c ≠ '/' →
      ∀ rest, lexUses chars (text ++ c :: rest) = lexUses chars text ++ .sym c :: lexUses chars rest :=
    fun htext hascii hword hspace hcolon hslash rest =>
      lexUses_symbol (closes_of_notMem htext) (not_word_ascii hascii hword)
        (not_space_ascii hascii hspace) hcolon hslash rest
  have hcolons : ∀ c ∈ path ++ [':', ':'], c ∉ groupChars := by
    intro c hc
    rcases List.mem_append.mp hc with hc | hc
    · exact hpath c hc
    · obtain rfl : c = ':' := by simpa using hc
      decide
  have hbody : ∀ c ∈ [','].intercalate parts, c = ',' ∨ c ∉ groupChars := by
    intro c hc
    rcases mem_intercalate hc with h | ⟨part, hpart, h⟩
    · exact .inl (List.mem_singleton.mp h)
    · exact .inr (hparts part hpart c h)
  have hout : ∀ {c : Char}, c ∈ groupChars → c ∉ path ++ [':', ':'] := fun hc hmem => hcolons _ hmem hc
  have hout' : ∀ {c : Char}, c ≠ ',' → c ∈ groupChars → c ∉ [','].intercalate parts := fun hcomma hc hmem =>
    (hbody _ hmem).elim hcomma fun h => h hc
  have hslash : '/' ∉ before := fun hmem => by
    have hspace := hbefore _ hmem
    rw [chars.space_ascii '/' (by decide)] at hspace
    exact absurd hspace (by decide)
  have htokens : lexUses chars (vis ++ (['u', 's', 'e'] ++ (blanks ++ (path ++ ([':', ':', '{'] ++
      ([','].intercalate parts ++ '}' :: (before ++ ';' :: after))))))) =
      (visTokens vis ++ .word ['u', 's', 'e'] :: (lexUses chars (path ++ [':', ':']) ++ .sym '{' ::
        (lexUses chars ([','].intercalate parts) ++ [.sym '}']))) ++ [.sym ';'] := by
    rw [lexUses_keyword hvis (by decide) (word_of_alphanum (by decide)) hne hblanks,
      show path ++ ([':', ':', '{'] ++ ([','].intercalate parts ++ '}' :: (before ++ ';' :: after))) =
        (path ++ [':', ':']) ++ '{' :: ([','].intercalate parts ++ '}' :: (before ++ ';' :: after)) by simp,
      hsymbol (hout (by decide)) (by decide) (by decide) (by decide) (by decide) (by decide),
      hsymbol (hout' (by decide) (by decide)) (by decide) (by decide) (by decide) (by decide) (by decide),
      hsymbol hslash (by decide) (by decide) (by decide) (by decide) (by decide),
      lexUses_blanks_nil hbefore, lexUses_blanks_nil hafter]
    simp
  have hsemi : UseToken.sym ';' ∉ visTokens vis ++ .word ['u', 's', 'e'] :: (lexUses chars (path ++ [':', ':']) ++
      .sym '{' :: (lexUses chars ([','].intercalate parts) ++ [.sym '}'])) := by
    have hpathSemi := @sym_notMem_lexUses chars (path ++ [':', ':']) ';' (hout (by decide))
    have hbodySemi := @sym_notMem_lexUses chars ([','].intercalate parts) ';' (hout' (by decide) (by decide))
    have hvisSemi : .sym ';' ∉ visTokens vis := fun hmem =>
      semicolon_notMem_visTokens vis ['u', 's', 'e'] (List.mem_append_left _ hmem)
    simp [hpathSemi, hbodySemi, hvisSemi]
  rw [topImports, if_neg (by rw [isVis_head hvis (.inl rfl)]; decide), lineItems, htokens,
    List.splitOn_append_cons_self_of_not_mem hsemi, List.splitOn_nil, List.flatMap_cons, List.flatMap_singleton]
  have hcloses : ∀ part ∈ parts, Closes chars part := fun part hpart =>
    closes_of_notMem fun hmem => hparts part hpart _ hmem (by decide)
  have hitem : itemImports (visTokens vis ++ .word ['u', 's', 'e'] :: (lexUses chars (path ++ [':', ':']) ++
      .sym '{' :: (lexUses chars ([','].intercalate parts) ++ [.sym '}']))) =
      treeImports [] [] (lexUses chars (path ++ [':', ':']) ++ .sym '{' ::
        (lexUses chars ([','].intercalate parts) ++ [.sym '}'])) := by
    rw [itemImports, itemBody_keyword (by decide)]
    rfl
  rw [hitem, treeImports_use hcolons,
    treeImports_group _ hcloses fun part hpart => notMem_shapes (hparts part hpart)]
  exact List.append_nil _

end Groups

/-! ## A group that is put out is read again -/

section Again

open Pattern

variable {chars : CharClass}

/-- A text up to the first character that is not of a class. -/
theorem append_cons_inj {p : Char → Bool} {front front' rest rest' : List Char} {c c' : Char}
    (hfront : ∀ d ∈ front, p d = true) (hfront' : ∀ d ∈ front', p d = true) (hc : p c = false) (hc' : p c' = false)
    (h : front ++ c :: rest = front' ++ c' :: rest') : front = front' ∧ c :: rest = c' :: rest' := by
  have htake : ∀ {front rest : List Char} {c : Char}, (∀ d ∈ front, p d = true) → p c = false →
      (front ++ c :: rest).takeWhile p = front := by
    intro front rest c hfront hc
    rw [List.takeWhile_append_of_pos hfront, List.takeWhile_cons_of_neg (by rw [hc]; decide), List.append_nil]
  have heq : front = front' := by rw [← htake hfront hc, h, htake hfront' hc']
  exact ⟨heq, List.append_cancel_left (heq ▸ h)⟩

/-- Where a visibility ends can be read off the text, since the keyword of an import does not begin
like one. -/
theorem isVis_inj {vis vis' rest rest' : List Char} (hvis : IsVis chars vis) (hvis' : IsVis chars vis')
    (h : vis ++ 'u' :: rest = vis' ++ 'u' :: rest') : vis = vis' ∧ rest = rest' := by
  have hu : chars.space 'u' = false := not_space_ascii (by decide) (by decide)
  rcases hvis with rfl | ⟨blanks, -, hblanks, rfl⟩
  · rcases hvis' with rfl | ⟨blanks', -, hblanks', rfl⟩
    · exact ⟨rfl, (List.cons.inj h).2⟩
    · exact absurd (List.cons.inj h).1 (by decide)
  · rcases hvis' with rfl | ⟨blanks', -, hblanks', rfl⟩
    · exact absurd (List.cons.inj h).1 (by decide)
    · rw [List.append_assoc, List.append_assoc] at h
      obtain ⟨heq, hrest⟩ := append_cons_inj hblanks hblanks' hu hu (List.append_cancel_left h)
      exact ⟨by rw [heq], (List.cons.inj hrest).2⟩

/-- A path that may stand before a group. -/
structure IsPath (chars : CharClass) (path : List Char) : Prop where
  ne : path ≠ []
  line : '\n' ∉ path
  start : path.head?.any chars.space = false
  plain : ∀ c ∈ path, c ∉ groupChars

/-- An item of a group. -/
structure IsItem (chars : CharClass) (item : List Char) : Prop where
  ne : item ≠ []
  strip : stripBlanks chars item = item
  plain : ∀ c ∈ item, c ∉ groupChars

/-- A character of the joined items is that of a comma, a blank or an item. -/
theorem mem_join {kept : List (List Char)} {c : Char} (h : c ∈ [',', ' '].intercalate kept) :
    c = ',' ∨ c = ' ' ∨ ∃ item ∈ kept, c ∈ item := by
  induction kept with
  | nil => cases h
  | cons item kept ih =>
    cases kept with
    | nil => exact .inr (.inr ⟨item, List.mem_cons_self, by simpa using h⟩)
    | cons next kept =>
      rw [List.intercalate_cons_cons, List.mem_append, List.mem_append] at h
      rcases h with (h | h) | h
      · exact .inr (.inr ⟨item, List.mem_cons_self, h⟩)
      · rcases List.mem_cons.mp h with h | h
        · exact .inl h
        · exact .inr (.inl (List.mem_singleton.mp h))
      · rcases ih h with h | h | ⟨other, hother, h⟩
        · exact .inl h
        · exact .inr (.inl h)
        · exact .inr (.inr ⟨other, List.mem_cons_of_mem item hother, h⟩)

/-- The items stand in no brace. -/
theorem notMem_join {kept : List (List Char)} (h : ∀ item ∈ kept, IsItem chars item) {c : Char}
    (hc : c ∈ groupChars) (hcomma : c ≠ ',') (hblank : c ≠ ' ') : c ∉ [',', ' '].intercalate kept := by
  intro hmem
  rcases mem_join hmem with h' | h' | ⟨item, hitem, h'⟩
  · exact hcomma h'
  · exact hblank h'
  · exact (h item hitem).plain c h' hc

/-- The text of a group, cut into what the pattern takes part by part. -/
theorem groupText_eq (vis path : List Char) (kept : List (List Char)) :
    groupText vis path kept = vis ++ (['u', 's', 'e'] ++ ([' '] ++ (path ++ ([':', ':', '{'] ++
      ([',', ' '].intercalate kept ++ '}' :: ([] ++ ';' :: [])))))) := rfl

/-- A semicolon ends the statement. -/
theorem takes_lineDone : Takes (lineDone chars) [';'] () [] := by
  have hnil : ∀ rest, Takes (many chars.space) [] [] rest := fun rest =>
    takes_many (fun c hc => absurd hc List.not_mem_nil) rest
  show Takes (lineDone chars) ([] ++ ([';'] ++ ([] ++ []))) () []
  unfold lineDone
  refine Takes.bind (hnil _) (Takes.bind (takes_lit ";" _) (Takes.bind (hnil _) ?_))
  intro before
  exact ⟨before, by simp⟩

/-- A visibility is taken as one. -/
theorem takes_pubGroup {vis : List Char} (h : IsVis chars vis) (rest : List Char) :
    Takes (pubGroup chars) vis vis rest := by
  rcases h with rfl | ⟨blanks, hne, hblanks, rfl⟩
  · exact (takes_pure [] rest).right _
  · refine Takes.left ?_ _
    have htakes : Takes (do
        lit "pub"
        let blanks ← many1 chars.space
        return ['p', 'u', 'b'] ++ blanks) ("pub".toList ++ (blanks ++ [])) (['p', 'u', 'b'] ++ blanks) rest :=
      Takes.bind (takes_lit "pub" _) (Takes.bind (takes_many1 hne hblanks _) (takes_pure _ rest))
    rw [List.append_nil] at htakes
    exact htakes

/-- A group that was written is taken apart into what it was written from. -/
theorem takes_groupText {vis path : List Char} {kept : List (List Char)} (hvis : IsVis chars vis)
    (hpath : IsPath chars path) (hkept : ∀ item ∈ kept, IsItem chars item) :
    Takes (useGroup chars) (groupText vis path kept) (vis, path, [',', ' '].intercalate kept) [] := by
  have hblank : ∀ c ∈ [' '], chars.space c = true := by
    intro c hc
    rw [List.mem_singleton.mp hc]
    exact chars.space_ascii ' ' (by decide)
  have hpathLine : ∀ c ∈ path, decide (c ≠ '\n') = true := fun c hc =>
    decide_eq_true fun h => hpath.line (h ▸ hc)
  have hbrace : ∀ c ∈ [',', ' '].intercalate kept, decide (c ≠ '}') = true := fun c hc =>
    decide_eq_true fun h => notMem_join hkept (by decide) (by decide) (by decide) (h ▸ hc)
  rw [groupText_eq]
  unfold useGroup
  refine Takes.bind (takes_pubGroup hvis _) (Takes.bind (takes_lit "use" _) (Takes.bind (takes_many1 (by simp) hblank _)
    (Takes.bind (takes_many1 hpath.ne hpathLine _).lazily (Takes.bind (takes_lit "::\x7b" _)
      (Takes.bind (takes_many hbrace _) (@Takes.bind _ _ _ _ ['}'] [';'] _ _ _ (takes_lit "\x7d" _) ?_))))))
  exact @Takes.bind _ _ _ _ [';'] [] _ _ _ takes_lineDone (takes_pure _ [])

/-- **A group that is put out can be read in one way.** -/
theorem useGroup_unique {vis path vis' path' body' : List Char} {kept : List (List Char)} {cursor : Cursor}
    (hvis : IsVis chars vis) (hpath : IsPath chars path) (hkept : ∀ item ∈ kept, IsItem chars item)
    (h : ((vis', path', body'), cursor) ∈ useGroup chars ⟨none, groupText vis path kept⟩) :
    (vis', path', body') = (vis, path, [',', ' '].intercalate kept) := by
  obtain ⟨blanks, before, after, hvis', hne, hblanks, -, -, hbody', -, -, htext⟩ := of_mem_useGroup h
  rw [groupText_eq] at htext
  obtain ⟨rfl, huse⟩ := isVis_inj hvis hvis' htext
  -- one blank follows the keyword, and the path begins with none
  obtain ⟨c, more, hc⟩ := List.exists_cons_of_ne_nil hpath.ne
  have hspace : chars.space c = false := by
    have hstart := hpath.start
    rw [hc] at hstart
    simpa using hstart
  obtain ⟨b, bs, rfl⟩ := List.exists_cons_of_ne_nil hne
  have hrest := (List.cons.inj (List.cons.inj (List.cons.inj huse).2).2).2
  have hbs : bs = [] := by
    cases bs with
    | nil => rfl
    | cons b' bs =>
      rw [hc] at hrest
      have hhead := (List.cons.inj hrest).1
      rw [hhead, hblanks b' (by simp)] at hspace
      exact Bool.noConfusion hspace
  subst hbs
  -- one brace opens
  have hopen : '{' ∉ path := fun hmem => hpath.plain _ hmem (by decide)
  have hjoin : '{' ∉ [',', ' '].intercalate kept := notMem_join hkept (by decide) (by decide) (by decide)
  have hsides : (path ++ [':', ':']) ++ '{' :: ([',', ' '].intercalate kept ++ '}' :: ([] ++ ';' :: [])) =
      (path' ++ [':', ':']) ++ '{' :: (body' ++ '}' :: (before ++ ';' :: after)) := by
    simpa using hrest
  have hcount := congrArg (List.count '{') hsides
  have hopen' : '{' ∉ path' ++ [':', ':'] := by
    have hzero : ((path ++ [':', ':']) ++ '{' :: ([',', ' '].intercalate kept ++ '}' :: ([] ++ ';' :: []))).count
        '{' = 1 := by
      simp [List.count_append, List.count_eq_zero.mpr hopen, List.count_eq_zero.mpr hjoin]
    rw [hzero, List.count_append, List.count_cons_self] at hcount
    exact List.count_eq_zero.mp (by omega)
  have hclass : ∀ {text : List Char} {c : Char}, c ∉ text → ∀ d ∈ text, decide (d ≠ c) = true := fun hnot d hd =>
    decide_eq_true fun heq => hnot (heq ▸ hd)
  obtain ⟨hpaths, hbraces⟩ := append_cons_inj (p := fun d => decide (d ≠ '{'))
    (hclass (by simp [hopen])) (hclass hopen') (by decide) (by decide) hsides
  obtain ⟨hbodies, -⟩ := append_cons_inj (p := fun d => decide (d ≠ '}'))
    (hclass (notMem_join hkept (by decide) (by decide) (by decide))) (hclass hbody') (by decide) (by decide)
    (List.cons.inj hbraces).2
  rw [List.append_cancel_right hpaths, hbodies]

/-- That is the first way in which the pattern fits. -/
theorem first?_groupText {vis path : List Char} {kept : List (List Char)} (hvis : IsVis chars vis)
    (hpath : IsPath chars path) (hkept : ∀ item ∈ kept, IsItem chars item) :
    (useGroup chars).first? (groupText vis path kept) = some (vis, path, [',', ' '].intercalate kept) :=
  first?_eq (takes_groupText hvis hpath hkept) fun ⟨_, _⟩ hway => useGroup_unique hvis hpath hkept hway

/-- A group that was written is not indented. -/
theorem indented_groupText {vis : List Char} (hvis : IsVis chars vis) (path : List Char) (kept : List (List Char)) :
    indented chars (groupText vis path kept) = false := isVis_head hvis (.inl rfl) _

/-- It has no blanks around it. -/
theorem stripBlanks_groupText {vis path : List Char} {kept : List (List Char)} (hvis : IsVis chars vis) :
    stripBlanks chars (groupText vis path kept) = groupText vis path kept := by
  refine stripBlanks_eq_self (isVis_head hvis (.inl rfl) _) ?_
  have hlast : (groupText vis path kept).getLast? = some ';' := by
    have hsnoc : groupText vis path kept = (vis ++ (['u', 's', 'e', ' '] ++ (path ++ ([':', ':', '{'] ++
        ([',', ' '].intercalate kept ++ ['}']))))) ++ [';'] := by
      simp [groupText]
    rw [hsnoc, List.getLast?_concat]
  rw [hlast, Option.any_some]
  exact not_space_ascii (by decide) (by decide)

/-- A blank behind a comma may count for the next item. -/
theorem intercalate_comma_blank (item : List Char) (kept : List (List Char)) :
    [',', ' '].intercalate (item :: kept) = [','].intercalate (item :: kept.map (' ' :: ·)) := by
  induction kept generalizing item with
  | nil => rfl
  | cons next kept ih =>
    rw [List.intercalate_cons_cons, ih, List.map_cons, List.intercalate_cons_cons]
    cases kept <;> simp

/-- **The items are found again.** -/
theorem groupItems_join {kept : List (List Char)} (hne : kept ≠ []) (hkept : ∀ item ∈ kept, IsItem chars item) :
    groupItems chars ([',', ' '].intercalate kept) = kept := by
  obtain ⟨item, kept, rfl⟩ := List.exists_cons_of_ne_nil hne
  have hcomma : ∀ part ∈ item :: kept.map (' ' :: ·), ',' ∉ part := by
    intro part hpart hmem
    rcases List.mem_cons.mp hpart with rfl | hpart
    · exact (hkept part List.mem_cons_self).plain _ hmem (by decide)
    · obtain ⟨other, hother, rfl⟩ := List.mem_map.mp hpart
      rcases List.mem_cons.mp hmem with h | hmem
      · exact absurd h (by decide)
      · exact (hkept other (List.mem_cons_of_mem item hother)).plain _ hmem (by decide)
  have hspace : chars.space ' ' = true := chars.space_ascii ' ' (by decide)
  rw [groupItems, intercalate_comma_blank, List.splitOn_intercalate _ hcomma (List.cons_ne_nil _ _), List.map_cons,
    List.map_map]
  have hstrip : kept.map (stripBlanks chars ∘ (' ' :: ·)) = kept := by
    refine (List.map_congr_left fun other hother => ?_).trans (List.map_id kept)
    exact (stripBlanks_cons hspace other).trans (hkept other (List.mem_cons_of_mem item hother)).strip
  rw [hstrip, (hkept item List.mem_cons_self).strip, List.filter_eq_self]
  exact fun other hother => decide_eq_true (hkept other hother).ne

/-- **A group that is put out is read as it was.** -/
theorem readTopLine_groupText {vis path : List Char} {kept : List (List Char)} (hvis : IsVis chars vis)
    (hpath : IsPath chars path) (hne : kept ≠ []) (hkept : ∀ item ∈ kept, IsItem chars item) :
    readTopLine chars (groupText vis path kept) = .group vis path kept := by
  simp only [readTopLine, stripBlanks_groupText hvis, first?_groupText hvis hpath hkept, groupItems_join hne hkept]

end Again

/-! ## Lines that are read -/

section Lines

variable {chars : CharClass}

/-- **A group that is a group**: what the pattern takes for the path has no braces, commas, semicolons or
comments and begins with no blank, and what it takes for the items has no brace, semicolon or comment. -/
def PlainGroup (chars : CharClass) (line : List Char) : Prop :=
  indented chars line = false → ∀ vis path body,
    (useGroup chars).first? (stripBlanks chars line) = some (vis, path, body) →
      path.head?.any chars.space = false ∧ (∀ c ∈ path, c ∉ groupChars) ∧ ∀ c ∈ body, c ∉ ['{', ';', '/']

/-- What is read as a group fitted the pattern of groups. -/
theorem readTopLine_group {line vis path : List Char} {items : List (List Char)}
    (h : readTopLine chars line = .group vis path items) :
    ∃ body, (useGroup chars).first? (stripBlanks chars line) = some (vis, path, body) ∧
      items = groupItems chars body := by
  simp only [readTopLine] at h
  split at h
  · rename_i hfirst
    obtain ⟨rfl, rfl, rfl⟩ := TopLine.group.inj h
    exact ⟨_, hfirst, rfl⟩
  · split at h
    · cases h
    · cases htype : (typeName chars).first? (stripBlanks chars line) with
      | none => rw [htype] at h; cases h
      | some name => rw [htype] at h; cases h

/-- What is read as a named item begins with a visibility, a keyword and blanks. -/
theorem readTopLine_named {line name : List Char} (h : readTopLine chars line = .named name) :
    ∃ vis word blanks rest, IsVis chars vis ∧ IsKeyword word ∧ blanks ≠ [] ∧ Blanks chars blanks ∧
      stripBlanks chars line = vis ++ (word ++ (blanks ++ rest)) := by
  simp only [readTopLine] at h
  split at h
  · cases h
  · split at h
    · rename_i hname
      obtain ⟨hfirst, -⟩ := Option.filter_eq_some_iff.mp hname
      obtain ⟨cursor, hmem⟩ := Pattern.of_first? hfirst
      obtain ⟨vis, blanks, rest, hvis, hne, hblanks, hline⟩ := of_mem_useName hmem
      exact ⟨vis, _, blanks, rest, hvis, .inl rfl, hne, hblanks, hline⟩
    · cases htype : (typeName chars).first? (stripBlanks chars line) with
      | none => rw [htype] at h; cases h
      | some name =>
        obtain ⟨cursor, hmem⟩ := Pattern.of_first? htype
        obtain ⟨vis, blanks, rest, hvis, hne, hblanks, hline⟩ := of_mem_typeName hmem
        exact ⟨vis, _, blanks, rest, hvis, .inr rfl, hne, hblanks, hline⟩

/-- A line with a name is none of the other lines. -/
theorem named_not_other {line name : List Char} (hindent : indented chars line = false)
    (h : readTopLine chars line = .named name) : ¬ OtherLine chars line := by
  obtain ⟨vis, word, blanks, rest, hvis, hword, hne, hblanks, hline⟩ := readTopLine_named h
  exact not_otherLine hindent hvis hword hne hblanks hline

/-- Nor is a group. -/
theorem group_not_other {line vis path : List Char} {items : List (List Char)} (hindent : indented chars line = false)
    (h : readTopLine chars line = .group vis path items) : IsVis chars vis ∧ ¬ OtherLine chars line := by
  obtain ⟨body, hfirst, -⟩ := readTopLine_group h
  obtain ⟨cursor, hmem⟩ := Pattern.of_first? hfirst
  obtain ⟨blanks, before, after, hvis, hne, hblanks, -, -, -, -, -, hline⟩ := of_mem_useGroup hmem
  exact ⟨hvis, not_otherLine hindent hvis (.inl rfl) hne hblanks hline⟩

/-- Nor is a group that is put out. -/
theorem groupText_not_other {vis path : List Char} {kept : List (List Char)} (hvis : IsVis chars vis) :
    ¬ OtherLine chars (groupText vis path kept) := by
  have hblank : Blanks chars [' '] := by
    intro c hc
    rw [List.mem_singleton.mp hc]
    exact chars.space_ascii ' ' (by decide)
  exact not_otherLine (isVis_head hvis (.inl rfl) _) hvis (.inl rfl) (List.cons_ne_nil _ _) hblank
    ((stripBlanks_groupText hvis).trans (groupText_eq vis path kept))

/-- **What is read of a plain group**: a path, items, and its imports. -/
theorem plainGroup_spec {line vis path : List Char} {items : List (List Char)} (hplain : PlainGroup chars line)
    (hindent : indented chars line = false) (h : readTopLine chars line = .group vis path items) :
    IsPath chars path ∧ (∀ item ∈ items, IsItem chars item) ∧
      topImports chars line = items.flatMap (itemImport chars path) := by
  obtain ⟨body, hfirst, rfl⟩ := readTopLine_group h
  obtain ⟨hstart, hpath, hbody⟩ := hplain hindent vis path body hfirst
  obtain ⟨cursor, hmem⟩ := Pattern.of_first? hfirst
  obtain ⟨blanks, before, after, hvis, hne, hblanks, hpathne, hnewline, hbrace, hbefore, hafter, hline⟩ :=
    of_mem_useGroup hmem
  have hparts : ∀ part ∈ body.splitOn ',', ∀ c ∈ part, c ∉ groupChars := by
    intro part hpart c hc
    have hmem : c ∈ body := mem_of_mem_splitOn hpart hc
    have hcomma := notMem_of_mem_splitOn hpart
    have hother := hbody c hmem
    intro hgroup
    simp only [groupChars, List.mem_cons, List.not_mem_nil, or_false] at hgroup hother
    rcases hgroup with rfl | rfl | rfl | rfl | rfl
    · exact hother (.inl rfl)
    · exact hbrace hmem
    · exact hcomma hc
    · exact hother (.inr (.inl rfl))
    · exact hother (.inr (.inr rfl))
  refine ⟨⟨hpathne, hnewline, hstart, hpath⟩, ?_, ?_⟩
  · intro item hitem
    obtain ⟨hmem, hnonempty⟩ := List.mem_filter.mp hitem
    obtain ⟨part, hpart, rfl⟩ := List.mem_map.mp hmem
    exact ⟨of_decide_eq_true hnonempty, stripBlanks_stripBlanks part,
      fun c hc => hparts part hpart c (mem_stripBlanks hc)⟩
  · obtain ⟨back, hback, hsplit⟩ := exists_back hindent
    have hafter' : Blanks chars (after ++ back) := fun c hc =>
      (List.mem_append.mp hc).elim (hafter c) (hback c)
    have himports := topImports_group hvis hne hblanks hpath hparts hbefore hafter'
    have htext : line = vis ++ (['u', 's', 'e'] ++ (blanks ++ (path ++ ([':', ':', '{'] ++
        ([','].intercalate (body.splitOn ',') ++ '}' :: (before ++ ';' :: (after ++ back))))))) := by
      rw [List.intercalate_splitOn]
      refine hsplit.trans ?_
      rw [hline]
      simp
    rw [htext, himports, groupItems]
    -- the blanks around a part say nothing, and an empty part is no import
    have hslash : ∀ part ∈ body.splitOn ',', '/' ∉ stripBlanks chars part := fun part hpart hmem =>
      hparts part hpart '/' (mem_stripBlanks hmem) (by decide)
    generalize body.splitOn ',' = parts at hslash
    induction parts with
    | nil => rfl
    | cons part parts ih =>
      rw [List.flatMap_cons, ih fun p hp => hslash p (List.mem_cons_of_mem part hp), List.map_cons]
      have hlex : itemImport chars path part = itemImport chars path (stripBlanks chars part) := by
        rw [itemImport, itemImport, lexUses_stripBlanks (closes_of_notMem (hslash part List.mem_cons_self))]
      by_cases hnil : stripBlanks chars part = []
      · rw [List.filter_cons_of_neg (by simp [hnil]), hlex, hnil]
        rfl
      · rw [List.filter_cons_of_pos (by simp [hnil]), List.flatMap_cons, hlex]

/-- The imports of a group that is put out. -/
theorem topImports_groupText {vis path : List Char} {kept : List (List Char)} (hvis : IsVis chars vis)
    (hpath : IsPath chars path) (hne : kept ≠ []) (hkept : ∀ item ∈ kept, IsItem chars item) :
    topImports chars (groupText vis path kept) = kept.flatMap (itemImport chars path) := by
  have hplain : PlainGroup chars (groupText vis path kept) := by
    intro _ vis' path' body' hfirst
    rw [stripBlanks_groupText hvis, first?_groupText hvis hpath hkept] at hfirst
    obtain ⟨rfl, hrest⟩ := Prod.mk.inj (Option.some.inj hfirst)
    obtain ⟨rfl, rfl⟩ := Prod.mk.inj hrest
    refine ⟨hpath.start, hpath.plain, fun c hc hmem => ?_⟩
    simp only [List.mem_cons, List.not_mem_nil, or_false] at hmem
    rcases hmem with rfl | rfl | rfl
    · exact notMem_join hkept (by decide) (by decide) (by decide) hc
    · exact notMem_join hkept (by decide) (by decide) (by decide) hc
    · exact notMem_join hkept (by decide) (by decide) (by decide) hc
  exact (plainGroup_spec hplain (isVis_head hvis (.inl rfl) _) (readTopLine_groupText hvis hpath hne hkept)).2.2

end Lines

/-! ## One line -/

section Step

variable {chars : CharClass}

/-- Two lists with the same names. -/
def SameNames (seen seen' : List (List Char)) : Prop := ∀ name, name ∈ seen ↔ name ∈ seen'

/-- Lists with the same names have them when more are added to both. -/
theorem SameNames.append {seen seen' : List (List Char)} (h : SameNames seen seen') (more : List (List Char)) :
    SameNames (seen ++ more) (seen' ++ more) := by
  intro name
  rw [List.mem_append, List.mem_append, h name]

/-- They let the same items of a group through. -/
theorem SameNames.kept {seen seen' : List (List Char)} (h : SameNames seen seen') (items : List (List Char)) :
    (items.filter fun item => bindName chars item ∉ seen) = items.filter fun item => bindName chars item ∉ seen' :=
  List.filter_congr fun item _ => by simp only [h (bindName chars item)]

/-- A line by the names that are seen. -/
theorem dedupeLine_eq (seen : List (List Char)) (line : List Char) :
    dedupeLine chars seen line =
      if indented chars line then (seen, some line)
      else
        match readTopLine chars line with
        | .group vis path items =>
          (seen ++ (items.filter fun item => bindName chars item ∉ seen).map (bindName chars),
            if (items.filter fun item => bindName chars item ∉ seen) = [] then none
            else some (groupText vis path (items.filter fun item => bindName chars item ∉ seen)))
        | .named name => if name ∈ seen then (seen, none) else (seen ++ [name], some line)
        | .other => (seen, some line) := by
  simp only [dedupeLine, List.contains_eq_mem, decide_not]
  split
  · rfl
  · cases readTopLine chars line <;> simp

/-- Which imports of a line stand, by what the line is read as. -/
theorem standing_eq (seen : List (List Char)) (line : List Char) :
    standing chars seen line =
      if indented chars line then []
      else
        match readTopLine chars line with
        | .group _ path items =>
          items.flatMap fun item => (itemImport chars path item).map fun i => (decide (bindName chars item ∉ seen), i)
        | .named name => (topImports chars line).map fun i => (decide (name ∉ seen), i)
        | .other => (topImports chars line).map fun i => (true, i) := by
  simp only [standing, List.contains_eq_mem, decide_not]

/-- The names seen after a line. -/
theorem dedupeLine_seen {seen seen' : List (List Char)} (h : SameNames seen seen') (line : List Char) :
    SameNames (dedupeLine chars seen line).1 (seen' ++ writtenNames chars line) := by
  intro name
  rw [dedupeLine_eq]
  unfold writtenNames
  by_cases hindent : indented chars line = true
  · rw [if_pos hindent, if_pos hindent, List.append_nil]
    exact h name
  · rw [if_neg hindent, if_neg hindent]
    cases readTopLine chars line with
    | group vis path items =>
      simp only [List.mem_append, List.mem_map, List.mem_filter, decide_eq_true_eq, ← h name]
      constructor
      · rintro (hseen | ⟨item, ⟨hitem, -⟩, rfl⟩)
        · exact .inl hseen
        · exact .inr ⟨item, hitem, rfl⟩
      · rintro (hseen | ⟨item, hitem, rfl⟩)
        · exact .inl hseen
        · by_cases hseen : bindName chars item ∈ seen
          · exact .inl hseen
          · exact .inr ⟨item, ⟨hitem, hseen⟩, rfl⟩
    | named own =>
      by_cases hseen : own ∈ seen
      · simp only [if_pos hseen, List.mem_append, List.mem_singleton, ← h name]
        constructor
        · exact .inl
        · rintro (hname | rfl)
          · exact hname
          · exact hseen
      · simp only [if_neg hseen, List.mem_append, List.mem_singleton, ← h name]
    | other =>
      rw [List.append_nil]
      exact h name

/-- Leaving the marks out gives the imports of the line. -/
theorem standing_snd (fresh : Bool) (imports : List Import) :
    (imports.map fun i => (fresh, i)).map Prod.snd = imports := by
  rw [List.map_map]
  exact List.map_id imports

/-- With one mark for all, either all stand or none does. -/
theorem standing_fresh (fresh : Bool) (imports : List Import) :
    ((imports.map fun i => (fresh, i)).filter (·.1)).map Prod.snd = if fresh then imports else [] := by
  cases fresh with
  | false =>
    rw [List.filter_eq_nil_iff.mpr (by simp)]
    rfl
  | true => rw [List.filter_eq_self.mpr (by simp), standing_snd, if_pos rfl]

/-- **The imports that a line keeps** are those with new names. -/
theorem dedupeLine_imports {seen seen' : List (List Char)} (h : SameNames seen seen') {line : List Char}
    (hplain : PlainGroup chars line) :
    (dedupeLine chars seen line).2.toList.flatMap (topImports chars) =
        ((standing chars seen' line).filter (·.1)).map Prod.snd ∧
      topImports chars line = (standing chars seen' line).map Prod.snd := by
  rw [dedupeLine_eq, standing_eq]
  by_cases hindent : indented chars line = true
  · have hnone : topImports chars line = [] := by rw [topImports, if_pos hindent]
    simp [if_pos hindent, hnone]
  · rw [if_neg hindent, if_neg hindent]
    have hindent := Bool.eq_false_iff.mpr hindent
    cases hread : readTopLine chars line with
    | group vis path items =>
      obtain ⟨hpath, hitems, himports⟩ := plainGroup_spec hplain hindent hread
      have hall : ∀ items : List (List Char), (items.flatMap fun item =>
          (itemImport chars path item).map fun i => (decide (bindName chars item ∉ seen'), i)).map Prod.snd =
          items.flatMap (itemImport chars path) := by
        intro items
        rw [List.map_flatMap]
        simp only [standing_snd]
      have hfresh : ∀ items : List (List Char), ((items.flatMap fun item =>
          (itemImport chars path item).map fun i => (decide (bindName chars item ∉ seen'), i)).filter (·.1)).map
          Prod.snd = (items.filter fun item => bindName chars item ∉ seen').flatMap (itemImport chars path) := by
        intro items
        induction items with
        | nil => rfl
        | cons item items ih =>
          rw [List.flatMap_cons, List.filter_append, List.map_append, ih, standing_fresh]
          by_cases hseen : bindName chars item ∈ seen'
          · rw [List.filter_cons_of_neg (by simpa using hseen), if_neg (by simpa using hseen), List.nil_append]
          · rw [List.filter_cons_of_pos (by simpa using hseen), if_pos (by simpa using hseen), List.flatMap_cons]
      refine ⟨?_, himports.trans (hall items).symm⟩
      simp only [hfresh, h.kept]
      by_cases hnil : (items.filter fun item => bindName chars item ∉ seen') = []
      · rw [if_pos hnil, hnil]
        rfl
      · have hkept : ∀ item ∈ items.filter (fun item => bindName chars item ∉ seen'), IsItem chars item :=
          fun item hitem => hitems item (List.mem_filter.mp hitem).1
        rw [if_neg hnil, Option.toList_some, List.flatMap_singleton,
          topImports_groupText (group_not_other hindent hread).1 hpath hnil hkept]
    | named name =>
      refine ⟨?_, (standing_snd _ _).symm⟩
      simp only [standing_fresh]
      by_cases hseen : name ∈ seen
      · have hseen' := (h name).mp hseen
        simp [hseen, hseen']
      · have hseen' : name ∉ seen' := fun hmem => hseen ((h name).mpr hmem)
        simp [hseen, hseen']
    | other =>
      refine ⟨?_, (standing_snd _ _).symm⟩
      simp only [standing_fresh]
      simp

/-- **The other lines stay**, and no line becomes one. -/
theorem dedupeLine_others (seen : List (List Char)) (line : List Char) :
    (dedupeLine chars seen line).2.toList.filter (OtherLine chars ·) = [line].filter (OtherLine chars ·) := by
  have hnone : ∀ {line : List Char}, ¬ OtherLine chars line → [line].filter (OtherLine chars ·) = [] := by
    intro line hline
    simp [hline]
  rw [dedupeLine_eq]
  by_cases hindent : indented chars line = true
  · rw [if_pos hindent]
    rfl
  · rw [if_neg hindent]
    have hindent := Bool.eq_false_iff.mpr hindent
    cases hread : readTopLine chars line with
    | group vis path items =>
      obtain ⟨hvis, hother⟩ := group_not_other hindent hread
      rw [hnone hother]
      dsimp only
      split
      · rfl
      · exact hnone (groupText_not_other hvis)
    | named name =>
      have hother := named_not_other hindent hread
      dsimp only
      split
      · rw [hnone hother]
        rfl
      · rfl
    | other => rfl

/-- **A line that is put out** is put out again. -/
theorem dedupeLine_again {seen seen' : List (List Char)} (h : SameNames seen seen') {line : List Char}
    (hplain : PlainGroup chars line) :
    ((dedupeLine chars seen line).2 = none ∧ SameNames (dedupeLine chars seen line).1 seen') ∨
      ∃ out, (dedupeLine chars seen line).2 = some out ∧ (dedupeLine chars seen' out).2 = some out ∧
        SameNames (dedupeLine chars seen line).1 (dedupeLine chars seen' out).1 := by
  simp only [dedupeLine_eq]
  by_cases hindent : indented chars line = true
  · exact .inr ⟨line, by rw [if_pos hindent], by rw [if_pos hindent], by rw [if_pos hindent, if_pos hindent]; exact h⟩
  · rw [if_neg hindent]
    have hindent := Bool.eq_false_iff.mpr hindent
    cases hread : readTopLine chars line with
    | group vis path items =>
      obtain ⟨hpath, hitems, -⟩ := plainGroup_spec hplain hindent hread
      have hvis := (group_not_other hindent hread).1
      dsimp only
      by_cases hnil : (items.filter fun item => bindName chars item ∉ seen) = []
      · left
        rw [if_pos hnil, hnil]
        exact ⟨rfl, by simpa using h⟩
      · right
        have hkept : ∀ item ∈ items.filter (fun item => bindName chars item ∉ seen), IsItem chars item :=
          fun item hitem => hitems item (List.mem_filter.mp hitem).1
        have hnew : ((items.filter fun item => bindName chars item ∉ seen).filter
            fun item => bindName chars item ∉ seen') = items.filter fun item => bindName chars item ∉ seen := by
          rw [← h.kept, List.filter_filter]
          simp
        refine ⟨_, if_neg hnil, ?_, ?_⟩
        · rw [if_neg (by rw [indented_groupText hvis]; decide), readTopLine_groupText hvis hpath hnil hkept]
          simp only [hnew, if_neg hnil]
        · rw [if_neg (by rw [indented_groupText hvis]; decide), readTopLine_groupText hvis hpath hnil hkept]
          simp only [hnew]
          exact h.append _
    | named name =>
      dsimp only
      by_cases hseen : name ∈ seen
      · left
        rw [if_pos hseen]
        exact ⟨rfl, h⟩
      · right
        have hseen' : name ∉ seen' := fun hmem => hseen ((h name).mpr hmem)
        refine ⟨line, by rw [if_neg hseen], ?_, ?_⟩
        · rw [if_neg (by rw [hindent]; decide), hread]
          simp only [if_neg hseen']
        · rw [if_neg hseen, if_neg (by rw [hindent]; decide), hread]
          simp only [if_neg hseen']
          exact h.append _
    | other =>
      refine .inr ⟨line, rfl, ?_, ?_⟩
      · rw [if_neg (by rw [hindent]; decide), hread]
      · rw [if_neg (by rw [hindent]; decide), hread]
        exact h

end Step

/-! ## All lines -/

section Run

variable {chars : CharClass}

/-- What is imported before and after, in order: after, it is what stands of what was there before.
The induction is over the lines, with the names seen so far. -/
theorem dedupeLines_imports {lines : List (List Char)} (hplain : ∀ line ∈ lines, PlainGroup chars line)
    {seen seen' : List (List Char)} (h : SameNames seen seen') :
    (dedupeLines chars seen lines).flatMap (topImports chars) =
        ((standings chars seen' lines).filter (·.1)).map Prod.snd ∧
      lines.flatMap (topImports chars) = (standings chars seen' lines).map Prod.snd := by
  induction lines generalizing seen seen' with
  | nil => exact ⟨rfl, rfl⟩
  | cons line lines ih =>
    obtain ⟨hfresh, hall⟩ := dedupeLine_imports h (hplain line List.mem_cons_self)
    obtain ⟨hfresh', hall'⟩ := ih (fun l hl => hplain l (List.mem_cons_of_mem line hl)) (dedupeLine_seen h line)
    constructor
    · rw [dedupeLines, List.flatMap_append, hfresh, hfresh', standings, List.filter_append, List.map_append]
    · rw [List.flatMap_cons, hall, hall', standings, List.map_append]

/-- The other lines all stay, in their order. -/
theorem dedupeLines_others (seen lines : List (List Char)) :
    (dedupeLines chars seen lines).filter (OtherLine chars ·) = lines.filter (OtherLine chars ·) := by
  induction lines generalizing seen with
  | nil => rfl
  | cons line lines ih =>
    rw [dedupeLines, List.filter_append, dedupeLine_others, ih, ← List.filter_append]
    rfl

/-- **A second pass changes nothing.** -/
theorem dedupeLines_again {lines : List (List Char)} (hplain : ∀ line ∈ lines, PlainGroup chars line)
    {seen seen' : List (List Char)} (h : SameNames seen seen') :
    dedupeLines chars seen' (dedupeLines chars seen lines) = dedupeLines chars seen lines := by
  induction lines generalizing seen seen' with
  | nil => rfl
  | cons line lines ih =>
    have hplains : ∀ l ∈ lines, PlainGroup chars l := fun l hl => hplain l (List.mem_cons_of_mem line hl)
    rw [dedupeLines]
    rcases dedupeLine_again h (hplain line List.mem_cons_self) with ⟨hnone, hseen⟩ | ⟨out, hout, hagain, hseen⟩
    · rw [hnone, Option.toList_none, List.nil_append]
      exact ih hplains hseen
    · rw [hout, Option.toList_some, List.singleton_append, dedupeLines, hagain, ih hplains hseen]
      rfl

/-- A group that is put out has no line break if its line had none. -/
theorem groupText_noBreak {line vis path : List Char} {items kept : List (List Char)}
    (h : readTopLine chars line = .group vis path items) (hkept : kept ⊆ items) (hline : '\n' ∉ line) :
    '\n' ∉ groupText vis path kept := by
  obtain ⟨body, hfirst, rfl⟩ := readTopLine_group h
  obtain ⟨cursor, hmem⟩ := Pattern.of_first? hfirst
  obtain ⟨blanks, before, after, -, -, -, -, hpath, -, -, -, htext⟩ := of_mem_useGroup hmem
  have hstripped : '\n' ∉ stripBlanks chars line := fun hbreak => hline (mem_stripBlanks hbreak)
  rw [htext] at hstripped
  simp only [List.mem_append, List.mem_cons, not_or] at hstripped
  obtain ⟨hvis, -, -, -, -, hbody, -⟩ := hstripped
  have hitems : '\n' ∉ [',', ' '].intercalate kept := by
    intro hbreak
    rcases mem_intercalate hbreak with hsep | ⟨item, hitem, hbreak⟩
    · revert hsep
      decide
    · obtain ⟨part, hpart, rfl⟩ := List.mem_map.mp (List.mem_of_mem_filter (hkept hitem))
      exact hbody (mem_of_mem_splitOn hpart (mem_stripBlanks hbreak))
  simp [groupText, hvis, hpath, hitems]

/-- A line that is put out has no line break if it had none. -/
theorem dedupeLine_noBreak {seen : List (List Char)} {line out : List Char} (hline : '\n' ∉ line)
    (h : (dedupeLine chars seen line).2 = some out) : '\n' ∉ out := by
  rw [dedupeLine_eq] at h
  split at h
  · obtain rfl := Option.some.inj h
    exact hline
  · split at h
    · rename_i hread
      dsimp only at h
      split at h
      · cases h
      · obtain rfl := Option.some.inj h
        exact groupText_noBreak hread List.filter_sublist.subset hline
    · split at h
      · cases h
      · obtain rfl := Option.some.inj h
        exact hline
    · obtain rfl := Option.some.inj h
      exact hline

/-- Lines that are put out have no line breaks if none of the lines had one. By induction on the lines. -/
theorem dedupeLines_noBreak {seen lines : List (List Char)} (hlines : ∀ line ∈ lines, '\n' ∉ line) :
    ∀ out ∈ dedupeLines chars seen lines, '\n' ∉ out := by
  induction lines generalizing seen with
  | nil => exact fun out hout => absurd hout List.not_mem_nil
  | cons line lines ih =>
    obtain ⟨hline, hlines⟩ := List.forall_mem_cons.mp hlines
    exact List.forall_mem_append.mpr ⟨fun out hout => dedupeLine_noBreak hline (Option.mem_toList.mp hout), ih hlines⟩

/-- **The text that is put out has the lines that are put out**, as long as there are any. -/
theorem splitOn_dedupeTopLevel {lines : List (List Char)} (hlines : ∀ line ∈ lines, '\n' ∉ line)
    (hne : dedupeLines chars [] lines ≠ []) :
    (dedupeTopLevel chars lines).splitOn '\n' = dedupeLines chars [] lines :=
  List.splitOn_intercalate '\n' (dedupeLines_noBreak hlines) hne

/-- The imports that are kept and those that are not, among imports of which some are new. -/
theorem kept_iff (marked : List (Bool × Import)) :
    ((∀ name ∈ (marked.map Prod.snd).filterMap Import.name?,
          (((marked.filter (·.1)).map Prod.snd).filterMap Import.name?).count name = 1) ∧
        ((marked.filter (·.1)).map Prod.snd).filter (fun i => i.name? = none) =
          (marked.map Prod.snd).filter fun i => i.name? = none) ↔
      (((marked.filter (·.1)).map Prod.snd).filterMap Import.name?).Nodup ∧
        ∀ i, (false, i) ∈ marked → ∃ name, i.name? = some name ∧
          name ∈ ((marked.filter (·.1)).map Prod.snd).filterMap Import.name? := by
  have hsub : ((marked.filter (·.1)).map Prod.snd).Sublist (marked.map Prod.snd) := List.filter_sublist.map _
  have hfresh : ∀ {i}, i ∈ (marked.filter (·.1)).map Prod.snd ↔ (true, i) ∈ marked := by
    intro i
    simp [List.mem_map, List.mem_filter]
  constructor
  · rintro ⟨honce, hequal⟩
    refine ⟨List.nodup_iff_count_le_one.mpr fun name => ?_, fun i hi => ?_⟩
    · by_cases hmem : name ∈ ((marked.filter (·.1)).map Prod.snd).filterMap Import.name?
      · exact (honce name ((hsub.filterMap _).subset hmem)).le
      · rw [List.count_eq_zero.mpr hmem]
        exact Nat.zero_le 1
    · cases hname : i.name? with
      | some name =>
        have hbound : name ∈ (marked.map Prod.snd).filterMap Import.name? :=
          List.mem_filterMap.mpr ⟨i, List.mem_map_of_mem hi, hname⟩
        refine ⟨name, rfl, List.count_pos_iff.mp ?_⟩
        rw [honce name hbound]
        exact Nat.one_pos
      | none =>
        -- a nameless import that is not kept makes the kept ones fewer
        exfalso
        have hunnamed : ∀ l : List Import, (l.filter fun i => i.name? = none).count i = l.count i := fun l =>
          List.count_filter (decide_eq_true hname)
        have hcount := congrArg (List.count i) hequal
        rw [hunnamed, hunnamed] at hcount
        have hsplit := ((List.filter_append_perm (fun m : Bool × Import => m.1) marked).map Prod.snd).count_eq i
        rw [List.map_append, List.count_append] at hsplit
        have hpos : 0 < ((marked.filter fun m => !m.1).map Prod.snd).count i :=
          List.count_pos_iff.mpr (List.mem_map_of_mem (List.mem_filter.mpr ⟨hi, rfl⟩))
        omega
  · rintro ⟨hnodup, hcovered⟩
    refine ⟨fun name hname => ?_, ?_⟩
    · refine List.count_eq_one_of_mem hnodup ?_
      obtain ⟨i, hi, hiname⟩ := List.mem_filterMap.mp hname
      obtain ⟨⟨fresh, i⟩, hmem, rfl⟩ := List.mem_map.mp hi
      cases fresh with
      | true => exact List.mem_filterMap.mpr ⟨i, hfresh.mpr hmem, hiname⟩
      | false =>
        obtain ⟨name', hname', hkept⟩ := hcovered i hmem
        rw [hiname] at hname'
        obtain rfl := Option.some.inj hname'
        exact hkept
    · rw [List.filter_map, List.filter_map, List.filter_filter]
      refine congrArg (List.map Prod.snd) (List.filter_congr fun m hm => ?_)
      obtain ⟨fresh, i⟩ := m
      cases fresh with
      | true => simp
      | false =>
        obtain ⟨name, hname, -⟩ := hcovered i hm
        simp [hname]

/-- **When the imports are deduplicated**: no two imports with new names bind one name, and each of the others binds a name
that one of them binds. Of an import with a group it is asked only that what the pattern takes for its path and its
items is plain, without nested braces and comments. -/
theorem dedupeTopLevel_iff {lines : List (List Char)} (hplain : ∀ line ∈ lines, PlainGroup chars line) :
    Deduped chars lines (dedupeLines chars [] lines) ↔
      (((standings chars [] lines).filter (·.1)).filterMap (Import.name? ∘ Prod.snd)).Nodup ∧
        ∀ i, (false, i) ∈ standings chars [] lines →
          ∃ name, i.name? = some name ∧ ∃ j, (true, j) ∈ standings chars [] lines ∧ j.name? = some name := by
  have hsame : SameNames [] [] := fun _ => Iff.rfl
  obtain ⟨hfresh, hall⟩ := dedupeLines_imports hplain hsame
  have hnames : ((standings chars [] lines).filter (·.1)).filterMap (Import.name? ∘ Prod.snd) =
      (((standings chars [] lines).filter (·.1)).map Prod.snd).filterMap Import.name? := List.filterMap_map.symm
  have hcovered : ∀ name, (∃ j, (true, j) ∈ standings chars [] lines ∧ j.name? = some name) ↔
      name ∈ (((standings chars [] lines).filter (·.1)).map Prod.snd).filterMap Import.name? := by
    intro name
    simp [List.mem_filterMap, List.mem_filter]
  simp only [hnames, hcovered]
  rw [← kept_iff, ← hfresh, ← hall]
  constructor
  · exact fun h => ⟨h.once, h.unnamed⟩
  · exact fun h => ⟨h.1, h.2, dedupeLines_others [] lines, dedupeLines_again hplain hsame⟩

end Run

/-- Two groups with a name in common. -/
def commonName : List (List Char) :=
  ["use core::ffi::\x7bc_void, c_int\x7d;".toList, "use std::os::raw::\x7bc_void, c_char as Byte\x7d;".toList]

/-- The theorem at a file in which two groups have a name in common. -/
theorem dedupeTopLevel_commonName : Deduped .ascii commonName (dedupeLines .ascii [] commonName) := by
  have hplain : ∀ line ∈ commonName, PlainGroup .ascii line := by
    have hfirst : (useGroup .ascii).first? (stripBlanks .ascii "use core::ffi::\x7bc_void, c_int\x7d;".toList) =
        some ([], "core::ffi".toList, "c_void, c_int".toList) := by decide +kernel
    have hsecond : (useGroup .ascii).first?
        (stripBlanks .ascii "use std::os::raw::\x7bc_void, c_char as Byte\x7d;".toList) =
        some ([], "std::os::raw".toList, "c_void, c_char as Byte".toList) := by decide +kernel
    have hnone : ∀ {text bad : List Char}, text.all (fun c => !bad.contains c) = true → ∀ c ∈ text, c ∉ bad := by
      intro text bad h c hc
      simpa using List.all_eq_true.mp h c hc
    intro line hline _ vis path body hread
    simp only [commonName, List.mem_cons, List.not_mem_nil, or_false] at hline
    rcases hline with rfl | rfl
    · rw [hfirst] at hread
      cases hread
      exact ⟨by decide +kernel, hnone (by decide +kernel), hnone (by decide +kernel)⟩
    · rw [hsecond] at hread
      cases hread
      exact ⟨by decide +kernel, hnone (by decide +kernel), hnone (by decide +kernel)⟩
  refine (dedupeTopLevel_iff hplain).mpr ⟨by decide +kernel, fun i hi => ?_⟩
  have hstandings : standings .ascii [] commonName =
      [(true, ⟨["core".toList, "ffi".toList, "c_void".toList], .name "c_void".toList⟩),
        (true, ⟨["core".toList, "ffi".toList, "c_int".toList], .name "c_int".toList⟩),
        (false, ⟨["std".toList, "os".toList, "raw".toList, "c_void".toList], .name "c_void".toList⟩),
        (true, ⟨["std".toList, "os".toList, "raw".toList, "c_char".toList], .name "Byte".toList⟩)] := by
    decide +kernel
  rw [hstandings] at hi ⊢
  simp only [List.mem_cons, Prod.mk.injEq, Bool.false_eq_true, false_and, true_and, List.not_mem_nil, or_false,
    false_or] at hi
  subst hi
  exact ⟨"c_void".toList, rfl, _, List.mem_cons_self, rfl⟩

/-- The second module bound by `self` is lost, so is the second trait imported as `_`, and a line with a comment
keeps a name that is there already. -/
theorem dedupeTopLevel_not :
    (¬ Deduped .ascii ["use core::fmt::\x7bself\x7d;".toList, "use core::mem::\x7bself\x7d;".toList]
      (dedupeLines .ascii [] ["use core::fmt::\x7bself\x7d;".toList, "use core::mem::\x7bself\x7d;".toList])) ∧
    (¬ Deduped .ascii ["use core::fmt::Write as _;".toList, "use core::hash::Hasher as _;".toList]
      (dedupeLines .ascii [] ["use core::fmt::Write as _;".toList, "use core::hash::Hasher as _;".toList])) ∧
    ¬ Deduped .ascii ["use core::ffi::c_void;".toList, "use std::os::raw::c_void; // C".toList]
      (dedupeLines .ascii [] ["use core::ffi::c_void;".toList, "use std::os::raw::c_void; // C".toList]) := by
  refine ⟨fun h => ?_, fun h => ?_, fun h => ?_⟩
  · exact absurd (h.once "mem".toList (by decide +kernel)) (by decide +kernel)
  · exact absurd h.unnamed (by decide +kernel)
  · exact absurd (h.once "c_void".toList (by decide +kernel)) (by decide +kernel)

end Assure
