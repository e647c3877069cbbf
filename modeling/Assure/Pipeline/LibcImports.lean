import Mathlib.Data.Finset.Dedup
import Mathlib.Data.Finset.Union
import Assure.Library.Collections
import Assure.Library.Cutting
import Assure.Library.Rewriting
import Assure.Pipeline.DedupeTopLevel
import Assure.Pipeline.FunctionDefinition

/-!
# Imports from the C library that collide with definitions

`stripCollidingLibcImports` takes out of the `use libc::` statements what the file defines itself. The definitions are
those that begin an unindented line in one of seven ways. A statement with braces is split at its commas, and the parts
whose text before ` as ` is such a name are left out; a statement with one name is left out as a whole.

For every source whose other text the passes leave alone, the output is the source with each
statement replaced by what the passes make of it, and a statement comes out right exactly under its
condition. That the whole text is right only if every statement is stays open, since two wrong
statements can make up for each other.
-/

namespace Assure

open Assure.Library

/-! ## The definitions of a file -/

section Definitions

open Pattern

variable (chars : CharClass)

/-- `(?:word\s+)?` -/
def onDemand (word : String) : Pattern Unit :=
  optional do
    lit word
    let _ ← many1 chars.space

/-- `^(?:pub\s+)?…keyword\s+…(\w+)` -/
def definedName (modifiers : Pattern Unit) (keyword : String) (behind : Pattern Unit) : Pattern (List Char) := do
  Pattern.lineStart
  onDemand chars "pub"
  modifiers
  lit keyword
  let _ ← many1 chars.space
  behind
  many1 chars.word

/-- `^(?:pub\s+)?static\s+(?:mut\s+)?(\w+)` -/
def staticDefinition : Pattern (List Char) := definedName chars (pure ()) "static" (onDemand chars "mut")

/-- `^(?:pub\s+)?(?:unsafe\s+)?(?:extern\s+\"C\"\s+)?fn\s+(\w+)` -/
def fnDefinition : Pattern (List Char) :=
  definedName chars (do
    onDemand chars "unsafe"
    optional do
      lit "extern"
      let _ ← many1 chars.space
      lit "\"C\""
      let _ ← many1 chars.space) "fn" (pure ())

/-- **`_DEF_PATTERNS`** -/
def defPatterns : List (Pattern (List Char)) :=
  (["type", "struct", "union", "enum", "const"].map fun keyword => definedName chars (pure ()) keyword (pure ())) ++
    [staticDefinition chars, fnDefinition chars]

/-- **`localDefinitions`** -/
def localDefinitions (src : List Char) : Finset (List Char) :=
  (defPatterns chars).foldl (fun names pattern => names ∪ (pattern.findAll src).toFinset) ∅

end Definitions

/-! ## The imports -/

section Imports

variable (chars : CharClass)

/-- `libc::` -/
def libcColons : List Char := ['l', 'i', 'b', 'c', ':', ':']

/-- `use\s+libc::`: what follows a match. -/
def useLibc? (text : List Char) : Option (List Char) :=
  (wordEnd? chars ['u', 's', 'e'] text).bind fun rest => rest.dropPrefix? libcColons

/-- `use\s+libc::\{([^}]*)\}\s*;`: what stands in the braces, and what follows a match. -/
def groupUse? (text : List Char) : Option (List Char × List Char) :=
  (useLibc? chars text).bind fun group =>
    (group.dropPrefix? ['{']).bind fun inner =>
      ((inner.dropWhile (· ≠ '}')).dropPrefix? ['}']).bind fun after =>
        ((after.dropWhile chars.space).dropPrefix? [';']).map fun rest => (inner.takeWhile (· ≠ '}'), rest)

/-- `use\s+libc::(\w+)\s*;`: the name, and what follows a match. -/
def singleUse? (text : List Char) : Option (List Char × List Char) :=
  (useLibc? chars text).bind fun named =>
    if named.takeWhile chars.word = [] then none
    else (((named.dropWhile chars.word).dropWhile chars.space).dropPrefix? [';']).map fun rest =>
      (named.takeWhile chars.word, rest)

/-- `n.split(" as ")[0]` -/
def beforeAs : List Char → List Char
  | [] => []
  | c :: text => if asBlanks <+: c :: text then [] else c :: beforeAs text

/-- A part of a group is left out if it is a local name as far as ` as `. -/
def IsLocal (localNames : Finset (List Char)) (part : List Char) : Prop :=
  stripBlanks chars (beforeAs part) ∈ localNames

instance (localNames : Finset (List Char)) (part : List Char) : Decidable (IsLocal chars localNames part) :=
  inferInstanceAs (Decidable (_ ∈ localNames))

/-- The parts of a group that are kept. -/
def keptParts (localNames : Finset (List Char)) (body : List Char) : List (List Char) :=
  (body.splitOn ',').filter fun part => stripBlanks chars part ≠ [] ∧ ¬ IsLocal chars localNames part

/-- **`replBraced`** -/
def replBraced (localNames : Finset (List Char)) (body : List Char) : List Char :=
  let kept := (keptParts chars localNames body).map (stripBlanks chars)
  if kept = [] then [] else groupText [] ['l', 'i', 'b', 'c'] kept

/-- A name on its own is left out if it is a local name. -/
def replSingle (localNames : Finset (List Char)) (matched name : List Char) : List Char :=
  if name ∈ localNames then [] else matched

/-- **`stripCollidingLibcImports`** -/
def stripCollidingLibcImports (src : List Char) : List Char :=
  let localNames := localDefinitions chars src
  let src := subAll (groupUse? chars) (fun _ body => replBraced chars localNames body) src
  subAll (singleUse? chars) (replSingle localNames) src

/-! ## A source -/

/-- **A `use libc::` statement**, from its keyword on: a tree of paths behind `libc::`, and a semicolon. -/
def IsLibcUse (core : List Char) : Prop :=
  ∃ front tree, core = front ++ [';'] ∧ ['u', 's', 'e'] <+: front ∧ Closes chars front ∧
    lexUses chars front = .word ['u', 's', 'e'] :: .word ['l', 'i', 'b', 'c'] :: .colons :: tree ∧ IsTree tree

/-- What such a statement imports. -/
def useImports (core : List Char) : List Import := itemImports (lexUses chars core.dropLast)

/-- **A part of a source**: an item with its name, an import with what stands before its keyword, or another text. -/
inductive SourcePart
  | item (before name after : List Char)
  | imports (lead core : List Char) (isUse : IsLibcUse chars core)
  | other (text : List Char)

variable {chars}

/-- The text of a part. -/
def SourcePart.text : SourcePart chars → List Char
  | .item before name after => before ++ (name ++ after)
  | .imports lead core _ => lead ++ core
  | .other text => text

/-- The text of a source. -/
def partsText (source : List (SourcePart chars)) : List Char := source.flatMap SourcePart.text

/-- The names that the items of a source define. -/
def definedNames (source : List (SourcePart chars)) : List (List Char) :=
  source.filterMap fun
    | .item _ name _ => some name
    | _ => none

/-- An import binds no name that is defined. -/
def Free (defined : List (List Char)) (i : Import) : Prop := ∀ name ∈ defined, i.name? ≠ some name

instance (defined : List (List Char)) (i : Import) : Decidable (Free defined i) :=
  List.decidableBAll (fun name => i.name? ≠ some name) defined

/-- **What is expected of a part**: an import is gone if all it binds is defined; otherwise, with what stands before its
keyword, it is a statement that imports what is not. Everything else is as it was. -/
def IsStripped (defined : List (List Char)) (out : List Char) : SourcePart chars → Prop
  | .imports lead core _ =>
    let remaining := (useImports chars core).filter (Free defined ·)
    (remaining = [] ∧ out = []) ∨ ∃ core', IsLibcUse chars core' ∧ useImports chars core' = remaining ∧
      out = lead ++ core'
  | part => out = part.text

/-- **The imports of a source without those of what it defines**, and nothing else changed. -/
def StripsCollisions (source : List (SourcePart chars)) (out : List Char) : Prop :=
  ∃ outs, List.Forall₂ (fun part out => IsStripped (definedNames source) out part) source outs ∧ out = outs.flatten

/-! ## How the patterns read a source -/

/-- How a statement is read: as a group, as a name, or not at all. -/
inductive UseForm
  | group (body : List Char)
  | single (name : List Char)
  | other

variable (chars) in
/-- What the patterns take for the whole of a statement. -/
def useForm (core : List Char) : UseForm :=
  match groupUse? chars core, singleUse? chars core with
  | some (body, []), _ => .group body
  | _, some (name, []) => .single name
  | _, _ => .other

section

variable (chars) (localNames : Finset (List Char))

/-- The comments in a group, between its commas. -/
def UseForm.CommentsEnd : UseForm → Prop
  | .group body => (∀ part ∈ body.splitOn ',', Closes chars part) ∧
      ∀ part ∈ keptParts chars localNames body, Closes chars (stripBlanks chars part)
  | .single _ | .other => True

/-- The names of a statement, and what stands before it. -/
def UseForm.MeetsNames (defined : List (List Char)) (lead core : List Char) : UseForm → Prop
  | .group body =>
    (∀ part ∈ body.splitOn ',', lexUses chars part ≠ [] →
      (IsLocal chars localNames part ↔ ¬ Free defined (importOf [['l', 'i', 'b', 'c']] (lexUses chars part)))) ∧
    (keptParts chars localNames body = [] → lead = [])
  | .single name =>
    (∀ i ∈ useImports chars core, name ∈ localNames ↔ ¬ Free defined i) ∧ (name ∈ localNames → lead = [])
  | .other => ∀ i ∈ useImports chars core, Free defined i

instance : ∀ form : UseForm, Decidable (form.CommentsEnd chars localNames)
  | .group body => inferInstanceAs (Decidable ((∀ part ∈ body.splitOn ',', Closes chars part) ∧
      ∀ part ∈ keptParts chars localNames body, Closes chars (stripBlanks chars part)))
  | .single _ | .other => .isTrue trivial

instance (defined : List (List Char)) (lead core : List Char) :
    ∀ form : UseForm, Decidable (form.MeetsNames chars localNames defined lead core)
  | .group body => inferInstanceAs (Decidable ((∀ part ∈ body.splitOn ',', lexUses chars part ≠ [] →
      (IsLocal chars localNames part ↔ ¬ Free defined (importOf [['l', 'i', 'b', 'c']] (lexUses chars part)))) ∧
        (keptParts chars localNames body = [] → lead = [])))
  | .single name => inferInstanceAs (Decidable
      ((∀ i ∈ useImports chars core, name ∈ localNames ↔ ¬ Free defined i) ∧ (name ∈ localNames → lead = [])))
  | .other => inferInstanceAs (Decidable (∀ i ∈ useImports chars core, Free defined i))

end

namespace SourcePart

/-- What a part becomes. -/
def stripped (localNames : Finset (List Char)) : SourcePart chars → List Char
  | .imports lead core _ =>
    lead ++ match useForm chars core with
      | .group body => replBraced chars localNames body
      | .single name => replSingle localNames core name
      | .other => core
  | part => part.text

/-- The pieces of a part in the first pass. -/
def groupPieces : SourcePart chars → List (List Char ⊕ (List Char × List Char))
  | .imports lead core _ =>
    match useForm chars core with
    | .group body => [.inl lead, .inr (core, body)]
    | .single _ | .other => [.inl lead, .inl core]
  | part => [.inl part.text]

/-- The pieces of a part in the second pass. -/
def singlePieces (localNames : Finset (List Char)) : SourcePart chars → List (List Char ⊕ (List Char × List Char))
  | .imports lead core _ =>
    match useForm chars core with
    | .group body => [.inl lead, .inl (replBraced chars localNames body)]
    | .single name => [.inl lead, .inr (core, name)]
    | .other => [.inl lead, .inl core]
  | part => [.inl part.text]

/-- **The comments in a group end between its commas**, and do so without the blanks around what is kept. -/
def CommentsEnd (localNames : Finset (List Char)) : SourcePart chars → Prop
  | .imports _ core _ => (useForm chars core).CommentsEnd chars localNames
  | _ => True

/-- **The local names are those that a statement binds and the source defines**, and nothing stands before a statement
that loses them all. -/
def MeetsNames (localNames : Finset (List Char)) (defined : List (List Char)) : SourcePart chars → Prop
  | .imports lead core _ => (useForm chars core).MeetsNames chars localNames defined lead core
  | _ => True

instance (localNames : Finset (List Char)) : ∀ part : SourcePart chars, Decidable (part.CommentsEnd localNames)
  | .imports _ core _ => inferInstanceAs (Decidable ((useForm chars core).CommentsEnd chars localNames))
  | .item _ _ _ | .other _ => .isTrue trivial

instance (localNames : Finset (List Char)) (defined : List (List Char)) :
    ∀ part : SourcePart chars, Decidable (part.MeetsNames localNames defined)
  | .imports lead core _ =>
    inferInstanceAs (Decidable ((useForm chars core).MeetsNames chars localNames defined lead core))
  | .item _ _ _ | .other _ => .isTrue trivial

end SourcePart

/-- **The patterns match the statements that they read**, and what they match elsewhere they leave as it is. -/
def Undisturbed (localNames : Finset (List Char)) (source : List (SourcePart chars)) : Prop :=
  Clear (groupUse? chars) (fun _ body => replBraced chars localNames body) (source.flatMap SourcePart.groupPieces) ∧
    Clear (singleUse? chars) (replSingle localNames) (source.flatMap (SourcePart.singlePieces localNames))

instance (localNames : Finset (List Char)) (source : List (SourcePart chars)) :
    Decidable (Undisturbed localNames source) := inferInstanceAs (Decidable (_ ∧ _))

/-! ## What the patterns take -/

/-- A prefix is dropped exactly from a text that begins with it. -/
theorem dropPrefix?_eq_some {word text rest : List Char} : text.dropPrefix? word = some rest ↔ text = word ++ rest := by
  rw [List.dropPrefix?_eq_some_iff]
  constructor
  · rintro ⟨word', rfl, heq⟩
    rw [eq_of_beq heq]
  · rintro rfl
    exact ⟨word, rfl, beq_self_eq_true word⟩

/-- A single character is dropped from in front. -/
theorem dropPrefix?_cons (c : Char) (rest : List Char) : (c :: rest).dropPrefix? [c] = some rest :=
  dropPrefix?_eq_some.mpr rfl

/-- A text up to the first character that is not of a class. -/
theorem splits_append_cons {p : Char → Bool} {front : List Char} (hfront : ∀ c ∈ front, p c = true) {c : Char}
    (hc : p c = false) (rest : List Char) :
    (front ++ c :: rest).takeWhile p = front ∧ (front ++ c :: rest).dropWhile p = c :: rest := by
  rw [List.takeWhile_append_of_pos hfront, List.dropWhile_append_of_pos hfront,
    List.takeWhile_cons_of_neg (by rw [hc]; exact Bool.false_ne_true),
    List.dropWhile_cons_of_neg (by rw [hc]; exact Bool.false_ne_true), List.append_nil]
  exact ⟨rfl, rfl⟩

/-- **`use`, blanks and `libc::`.** -/
theorem useLibc?_eq_some {text rest : List Char} : useLibc? chars text = some rest ↔
    ∃ gap, IsBlanks chars gap ∧ text = ['u', 's', 'e'] ++ (gap ++ (libcColons ++ rest)) := by
  constructor
  · intro h
    obtain ⟨path, hpath, hdrop⟩ := Option.bind_eq_some_iff.mp h
    obtain rfl := dropPrefix?_eq_some.mp hdrop
    rw [wordEnd?] at hpath
    split at hpath
    · rename_i hword
      obtain ⟨⟨more, rfl⟩, hgap⟩ := hword
      rw [List.drop_left] at hpath hgap
      refine ⟨more.takeWhile chars.space, ⟨hgap, fun c hc => List.mem_takeWhile_imp hc⟩, ?_⟩
      rw [← Option.some.inj hpath, List.takeWhile_append_dropWhile]
    · cases hpath
  · rintro ⟨gap, hgap, rfl⟩
    have hhead : (libcColons ++ rest).head?.any chars.space = false :=
      chars.disjoint 'l' ((chars.word_ascii 'l' (by decide)).trans (by decide))
    rw [useLibc?, wordEnd?_append hgap hhead]
    exact dropPrefix?_eq_some.mpr rfl

/-- The beginning of an import from libc is passed over, with the blanks in it. -/
theorem useLibc?_append {gap : List Char} (hgap : IsBlanks chars gap) (rest : List Char) :
    useLibc? chars (['u', 's', 'e'] ++ (gap ++ (libcColons ++ rest))) = some rest :=
  useLibc?_eq_some.mpr ⟨gap, hgap, rfl⟩

/-- The text of a group. -/
def groupCore (gap body gap' rest : List Char) : List Char :=
  ['u', 's', 'e'] ++ (gap ++ (libcColons ++ '{' :: (body ++ '}' :: (gap' ++ ';' :: rest))))

/-- **What a group has taken.** -/
theorem groupUse?_eq_some {text body rest : List Char} : groupUse? chars text = some (body, rest) ↔
    ∃ gap gap', IsBlanks chars gap ∧ '}' ∉ body ∧ Blanks chars gap' ∧ text = groupCore gap body gap' rest := by
  have hsemi : chars.space ';' = false := not_space_ascii (by decide) (by decide)
  constructor
  · intro h
    obtain ⟨group, hgroup, h⟩ := Option.bind_eq_some_iff.mp h
    obtain ⟨inner, hinner, h⟩ := Option.bind_eq_some_iff.mp h
    obtain ⟨after, hafter, h⟩ := Option.bind_eq_some_iff.mp h
    obtain ⟨rest', hrest, heq⟩ := Option.map_eq_some_iff.mp h
    obtain ⟨rfl, rfl⟩ := Prod.mk.inj heq
    obtain ⟨gap, hgap, rfl⟩ := useLibc?_eq_some.mp hgroup
    obtain rfl := dropPrefix?_eq_some.mp hinner
    have hafter := dropPrefix?_eq_some.mp hafter
    have hrest := dropPrefix?_eq_some.mp hrest
    refine ⟨gap, after.takeWhile chars.space, hgap, fun hmem => ?_, fun c hc => List.mem_takeWhile_imp hc, ?_⟩
    · simpa using List.mem_takeWhile_imp hmem
    · have hsplit : after = after.takeWhile chars.space ++ ';' :: rest' := by
        nth_rewrite 1 [← @List.takeWhile_append_dropWhile _ chars.space after, hrest]
        rfl
      have hinner' : inner = inner.takeWhile (· ≠ '}') ++ '}' :: after := by
        nth_rewrite 1 [← @List.takeWhile_append_dropWhile _ (· ≠ '}') inner, hafter]
        rfl
      nth_rewrite 1 [hinner', hsplit]
      rfl
  · rintro ⟨gap, gap', hgap, hbody, hgap', rfl⟩
    have hbrace : ∀ c ∈ body, decide (c ≠ '}') = true := fun c hc => decide_eq_true fun h => hbody (h ▸ hc)
    obtain ⟨htake, hdrop⟩ := splits_append_cons hbrace (decide_eq_false (not_not.mpr rfl)) (gap' ++ ';' :: rest)
    rw [groupUse?, groupCore, useLibc?_append hgap]
    simp only [Option.bind_some, dropPrefix?_cons, hdrop, htake, (splits_append_cons hgap' hsemi rest).2]
    rfl

/-- The text of a name. -/
def singleCore (gap name gap' rest : List Char) : List Char :=
  ['u', 's', 'e'] ++ (gap ++ (libcColons ++ (name ++ (gap' ++ ';' :: rest))))

/-- **What a name has taken.** -/
theorem singleUse?_eq_some {text name rest : List Char} : singleUse? chars text = some (name, rest) ↔
    ∃ gap gap', IsBlanks chars gap ∧ name ≠ [] ∧ (∀ c ∈ name, chars.word c = true) ∧ Blanks chars gap' ∧
      text = singleCore gap name gap' rest := by
  have hsemi : chars.space ';' = false := not_space_ascii (by decide) (by decide)
  constructor
  · intro h
    obtain ⟨named, hnamed, h⟩ := Option.bind_eq_some_iff.mp h
    split at h
    · cases h
    · rename_i hne
      obtain ⟨rest', hrest, heq⟩ := Option.map_eq_some_iff.mp h
      obtain ⟨rfl, rfl⟩ := Prod.mk.inj heq
      obtain ⟨gap, hgap, rfl⟩ := useLibc?_eq_some.mp hnamed
      have hrest := dropPrefix?_eq_some.mp hrest
      refine ⟨gap, (named.dropWhile chars.word).takeWhile chars.space, hgap, hne,
        fun c hc => List.mem_takeWhile_imp hc, fun c hc => List.mem_takeWhile_imp hc, ?_⟩
      have hafter : (named.dropWhile chars.word).takeWhile chars.space ++ ';' :: rest' = named.dropWhile chars.word := by
        rw [← List.singleton_append, ← hrest, List.takeWhile_append_dropWhile]
      rw [singleCore, hafter, List.takeWhile_append_dropWhile]
  · rintro ⟨gap, gap', hgap, hne, hname, hgap', rfl⟩
    obtain ⟨c, back, hback⟩ : ∃ c back, gap' ++ ';' :: rest = c :: back := by
      cases gap' with
      | nil => exact ⟨_, _, rfl⟩
      | cons c back => exact ⟨_, _, rfl⟩
    have hc : chars.word c = false := by
      cases gap' with
      | nil =>
        obtain rfl := (List.cons.inj hback).1
        exact not_word_ascii (by decide) (by decide)
      | cons d gap' =>
        obtain rfl := (List.cons.inj hback).1
        exact not_word_of_space (hgap' d List.mem_cons_self)
    obtain ⟨htake, hdrop⟩ := splits_append_cons hname hc back
    rw [← hback] at htake hdrop
    rw [singleUse?, singleCore, useLibc?_append hgap]
    simp only [Option.bind_some, htake, hdrop, if_neg hne, (splits_append_cons hgap' hsemi rest).2,
      dropPrefix?_cons]
    rfl

/-- What is read as a group is read in front of any other text. -/
theorem groupUse?_append {text body after : List Char} (h : groupUse? chars text = some (body, after))
    (rest : List Char) : groupUse? chars (text ++ rest) = some (body, after ++ rest) := by
  obtain ⟨gap, gap', hgap, hbody, hgap', rfl⟩ := groupUse?_eq_some.mp h
  exact groupUse?_eq_some.mpr ⟨gap, gap', hgap, hbody, hgap', by simp [groupCore]⟩

/-- So is what is read as a single import. -/
theorem singleUse?_append {text name after : List Char} (h : singleUse? chars text = some (name, after))
    (rest : List Char) : singleUse? chars (text ++ rest) = some (name, after ++ rest) := by
  obtain ⟨gap, gap', hgap, hne, hname, hgap', rfl⟩ := singleUse?_eq_some.mp h
  exact singleUse?_eq_some.mpr ⟨gap, gap', hgap, hne, hname, hgap', by simp [singleCore]⟩

/-- Reading a group leaves less than there was. -/
theorem groupUse?_shortens {text body after : List Char} (h : groupUse? chars text = some (body, after)) :
    after.length < text.length := by
  obtain ⟨gap, gap', -, -, -, rfl⟩ := groupUse?_eq_some.mp h
  simp only [groupCore, List.length_append, List.length_cons]
  omega

/-- So does reading a single import. -/
theorem singleUse?_shortens {text name after : List Char} (h : singleUse? chars text = some (name, after)) :
    after.length < text.length := by
  obtain ⟨gap, gap', -, -, -, -, rfl⟩ := singleUse?_eq_some.mp h
  simp only [singleCore, List.length_append, List.length_cons]
  omega

/-! ## The tokens of a statement -/

/-- The path of libc is two tokens. -/
theorem lexUses_libcColons (rest : List Char) :
    lexUses chars (libcColons ++ rest) = .word ['l', 'i', 'b', 'c'] :: .colons :: lexUses chars rest := by
  have hword : ∀ c ∈ ['l', 'i', 'b', 'c'], chars.word c = true := word_of_alphanum (by decide)
  have hspace : ∀ c ∈ ['l', 'i', 'b', 'c'], chars.space c = false := fun c hc => chars.disjoint c (hword c hc)
  have hcolon : chars.word ':' = false := not_word_ascii (by decide) (by decide)
  have hcolon' : chars.space ':' = false := not_space_ascii (by decide) (by decide)
  simp only [List.forall_mem_cons] at hword hspace
  simp [lexUses, libcColons, LexMode.lexFrom, LexMode.next, LexMode.start, hword, hspace, hcolon, hcolon']

/-- Behind it the lexer is where it was. -/
theorem after_libcColons (rest : List Char) :
    LexMode.idle.after chars (libcColons ++ rest) = LexMode.idle.after chars rest := by
  have hword : ∀ c ∈ ['l', 'i', 'b', 'c'], chars.word c = true := word_of_alphanum (by decide)
  have hspace : ∀ c ∈ ['l', 'i', 'b', 'c'], chars.space c = false := fun c hc => chars.disjoint c (hword c hc)
  have hcolon : chars.word ':' = false := not_word_ascii (by decide) (by decide)
  have hcolon' : chars.space ':' = false := not_space_ascii (by decide) (by decide)
  simp only [List.forall_mem_cons] at hword hspace
  simp [LexMode.after, libcColons, LexMode.next, LexMode.start, hword, hspace, hcolon, hcolon']

/-- The beginning of an import from libc is three tokens. -/
theorem lexUses_useLibc {gap : List Char} (hgap : IsBlanks chars gap) (rest : List Char) :
    lexUses chars (['u', 's', 'e'] ++ (gap ++ (libcColons ++ rest))) =
      .word ['u', 's', 'e'] :: .word ['l', 'i', 'b', 'c'] :: .colons :: lexUses chars rest := by
  rw [lexUses_word_blanks (List.cons_ne_nil _ _) (word_of_alphanum (by decide)) hgap.1 hgap.2, lexUses_libcColons]

/-- It leaves no comment open. -/
theorem closes_useLibc {gap : List Char} (hgap : IsBlanks chars gap) (rest : List Char) :
    Closes chars (['u', 's', 'e'] ++ (gap ++ (libcColons ++ rest))) ↔ Closes chars rest := by
  obtain ⟨hne, hblanks⟩ := hgap
  obtain ⟨b, blanks, rfl⟩ := List.exists_cons_of_ne_nil hne
  obtain ⟨hb, hblanks⟩ := List.forall_mem_cons.mp hblanks
  have huse : Closes chars ['u', 's', 'e'] := closes_of_notMem (by decide)
  have hblank : Closes chars (['u', 's', 'e'] ++ b :: (blanks ++ (libcColons ++ rest))) ↔
      Closes chars (blanks ++ (libcColons ++ rest)) := closes_append_blank huse hb
  refine hblank.trans ?_
  rw [closes_blanks hblanks, Closes, Closes, after_libcColons]

/-- A group, up to its semicolon. -/
def groupFront (gap body gap' : List Char) : List Char :=
  ['u', 's', 'e'] ++ (gap ++ (libcColons ++ '{' :: (body ++ '}' :: gap')))

/-- A group is its front and the semicolon. -/
theorem groupCore_eq (gap body gap' : List Char) : groupCore gap body gap' [] = groupFront gap body gap' ++ [';'] := by
  simp [groupCore, groupFront]

/-- The tokens of a group up to its closing brace are those of its body, in braces. -/
theorem lexUses_groupFront {gap body gap' : List Char} (hgap : IsBlanks chars gap) (hgap' : Blanks chars gap')
    (hbody : Closes chars body) :
    lexUses chars (groupFront gap body gap') =
      .word ['u', 's', 'e'] :: .word ['l', 'i', 'b', 'c'] :: .colons :: .sym
        '{' :: (lexUses chars body ++ [.sym '}']) := by
  have hopen := @lexUses_symbol chars [] trivial '{' (not_word_ascii (by decide) (by decide))
    (not_space_ascii (by decide) (by decide)) (by decide) (by decide) (body ++ '}' :: gap')
  have hclose := @lexUses_symbol chars body hbody '}' (not_word_ascii (by decide) (by decide))
    (not_space_ascii (by decide) (by decide)) (by decide) (by decide) gap'
  rw [List.nil_append] at hopen
  rw [groupFront, lexUses_useLibc hgap, hopen, hclose, lexUses_blanks_nil hgap']
  rfl

/-- A group leaves a comment open only where its body does. -/
theorem closes_groupFront {gap body gap' : List Char} (hgap : IsBlanks chars gap) (hgap' : Blanks chars gap')
    (hbody : Closes chars body) : Closes chars (groupFront gap body gap') := by
  have hopen : Closes chars ('{' :: (body ++ '}' :: gap')) ↔ Closes chars (body ++ '}' :: gap') :=
    @closes_append_cons chars [] trivial '{' (not_word_ascii (by decide) (by decide)) (by decide) (by decide) _
  have hslash : '/' ∉ gap' := fun hmem => by
    have hspace := hgap' _ hmem
    rw [not_space_ascii (by decide) (by decide)] at hspace
    exact Bool.false_ne_true hspace
  rw [groupFront, closes_useLibc hgap, hopen, closes_append_cons hbody (not_word_ascii (by decide) (by decide))
    (by decide) (by decide)]
  exact closes_of_notMem hslash

/-- **A group of parts is a statement.** -/
theorem isLibcUse_group {gap gap' : List Char} {parts : List (List Char)} (hgap : IsBlanks chars gap)
    (hgap' : Blanks chars gap') (hcloses : ∀ part ∈ parts, Closes chars part)
    (hparts : AreParts (parts.map (lexUses chars))) :
    IsLibcUse chars (groupCore gap ([','].intercalate parts) gap' []) := by
  have hbody := closes_intercalate hcloses
  refine ⟨groupFront gap ([','].intercalate parts) gap', _, groupCore_eq _ _ _, List.prefix_append _ _,
    closes_groupFront hgap hgap' hbody, lexUses_groupFront hgap hgap' hbody, ?_⟩
  rw [lexUses_intercalate hcloses]
  exact hparts.isTree

/-- **It imports what its parts do.** -/
theorem useImports_group {gap gap' : List Char} {parts : List (List Char)} (hgap : IsBlanks chars gap)
    (hgap' : Blanks chars gap') (hcloses : ∀ part ∈ parts, Closes chars part)
    (hshapes : ∀ part ∈ parts, ∀ token ∈ lexUses chars part, token ∉ shapes) :
    useImports chars (groupCore gap ([','].intercalate parts) gap' []) =
      parts.flatMap fun part => importOf? [['l', 'i', 'b', 'c']] (lexUses chars part) := by
  rw [useImports, groupCore_eq, List.dropLast_concat, lexUses_groupFront hgap hgap' (closes_intercalate hcloses),
    ← treeImports_group [['l', 'i', 'b', 'c']] hcloses hshapes]
  rfl

/-- **The parts of a group that is a statement.** -/
theorem parts_of_isLibcUse {gap body gap' : List Char} (hgap : IsBlanks chars gap) (hgap' : Blanks chars gap')
    (hbrace : '}' ∉ body) (huse : IsLibcUse chars (groupCore gap body gap' []))
    (hcloses : ∀ part ∈ body.splitOn ',', Closes chars part) :
    AreParts ((body.splitOn ',').map (lexUses chars)) ∧
      ∀ part ∈ body.splitOn ',', ∀ token ∈ lexUses chars part, token ∉ shapes := by
  have hjoin : [','].intercalate (body.splitOn ',') = body := List.intercalate_splitOn ','
  have hbody : Closes chars body := by
    have hparts := closes_intercalate hcloses
    rwa [hjoin] at hparts
  obtain ⟨front, tree, hcore, -, -, htokens, htree⟩ := huse
  rw [groupCore_eq] at hcore
  obtain rfl := List.append_cancel_right hcore
  rw [lexUses_groupFront hgap hgap' hbody] at htokens
  obtain rfl : .sym '{' :: (lexUses chars body ++ [.sym '}']) = tree :=
    (List.cons.inj (List.cons.inj (List.cons.inj htokens).2).2).2
  have hclose : .sym '}' ∉ lexUses chars body := sym_notMem_lexUses hbrace
  have hopen : .sym '{' ∉ lexUses chars body := by
    have hcount := htree.count_braces
    simp only [List.count_cons, List.count_append] at hcount
    rw [List.count_eq_zero.mpr hclose] at hcount
    refine List.count_eq_zero.mp ?_
    simpa using hcount
  have hcomma : ∀ part ∈ body.splitOn ',', .sym ',' ∉ lexUses chars part := fun part hpart =>
    sym_notMem_lexUses (notMem_of_mem_splitOn hpart)
  have hlex : lexUses chars body = [.sym ','].intercalate ((body.splitOn ',').map (lexUses chars)) := by
    rw [← lexUses_intercalate hcloses, hjoin]
  constructor
  · have hparts := htree.areParts hopen
    rw [hlex, List.splitOn_intercalate] at hparts
    · exact hparts
    · intro tokens htokens
      obtain ⟨part, hpart, rfl⟩ := List.mem_map.mp htokens
      exact hcomma part hpart
    · simp [List.splitOn_ne_nil]
  · intro part hpart token htoken hshape
    have hmem : token = .sym ',' ∨ token ∈ lexUses chars body := by
      rw [hlex]
      exact .inr (mem_intercalate_of_mem (List.mem_map_of_mem hpart) htoken)
    simp only [shapes, List.mem_cons, List.not_mem_nil, or_false] at hshape
    rcases hshape with rfl | rfl | rfl
    · exact hopen (hmem.resolve_left (by simp))
    · exact hclose (hmem.resolve_left (by simp))
    · exact hcomma part hpart htoken

/-! ## What is kept of a group -/

/-- A blank in front is no token. -/
theorem lexUses_blank_cons (text : List Char) : lexUses chars (' ' :: text) = lexUses chars text :=
  @lexUses_blank chars [] trivial ' ' (chars.space_ascii ' ' (by decide)) text

/-- **The parts that are kept**, as they are put together: the tokens are the same. -/
theorem groupText_eq_groupCore {kept : List (List Char)} (hne : kept ≠ [])
    (hcloses : ∀ part ∈ kept, Closes chars (stripBlanks chars part)) :
    ∃ parts, groupText [] ['l', 'i', 'b', 'c'] (kept.map (stripBlanks chars)) =
        groupCore [' '] ([','].intercalate parts) [] [] ∧
      (∀ part ∈ parts, Closes chars part) ∧ parts.map (lexUses chars) = kept.map (lexUses chars) := by
  obtain ⟨first, kept, rfl⟩ := List.exists_cons_of_ne_nil hne
  obtain ⟨hfirst, hkept⟩ := List.forall_mem_cons.mp hcloses
  refine ⟨stripBlanks chars first :: (kept.map (stripBlanks chars)).map (' ' :: ·), ?_, ?_, ?_⟩
  · rw [List.map_cons, groupText, intercalate_comma_blank]
    simp [groupCore, libcColons]
  · intro part hpart
    rcases List.mem_cons.mp hpart with rfl | hpart
    · exact hfirst
    · obtain ⟨text, htext, rfl⟩ := List.mem_map.mp hpart
      obtain ⟨own, hown, rfl⟩ := List.mem_map.mp htext
      have hspace : chars.space ' ' = true := chars.space_ascii ' ' (by decide)
      exact (@closes_append_blank chars [] trivial ' ' hspace _).mpr (hkept own hown)
  · rw [List.map_cons, List.map_cons, lexUses_stripBlanks hfirst, List.map_map, List.map_map]
    refine congrArg _ (List.map_congr_left fun part hpart => ?_)
    exact (lexUses_blank_cons _).trans (lexUses_stripBlanks (hkept part hpart))

/-- A part without tokens has nothing to keep. -/
theorem strip_ne_nil_of_lexUses {part : List Char} (h : lexUses chars part ≠ []) : stripBlanks chars part ≠ [] := by
  intro hnil
  obtain ⟨front, back, hfront, hback, hsplit⟩ := @exists_stripBlanks chars part
  rw [hsplit, hnil, List.append_nil] at h
  exact h (lexUses_blanks_nil fun c hc => (List.mem_append.mp hc).elim (hfront c) (hback c))

/-- The import of a part. -/
def partImports (chars : CharClass) (part : List Char) : List Import :=
    importOf? [['l', 'i', 'b', 'c']] (lexUses chars part)

/-- **The imports that are kept are the right ones** if and only if the parts that are left out are those whose import
is not free. -/
theorem flatMap_keptParts_iff {localNames : Finset (List Char)} {defined : List (List Char)} {body : List Char} :
    (keptParts chars localNames body).flatMap (partImports chars) =
        ((body.splitOn ',').flatMap (partImports chars)).filter (Free defined ·) ↔
      ∀ part ∈ body.splitOn ',', lexUses chars part ≠ [] →
        (IsLocal chars localNames part ↔ ¬ Free defined (importOf [['l', 'i', 'b', 'c']] (lexUses chars part))) := by
  have himports : partImports chars = fun part => if (decide (lexUses chars part ≠ [])) = true then
      [importOf [['l', 'i', 'b', 'c']] (lexUses chars part)] else [] := by
    funext part
    rw [partImports, importOf?]
    by_cases hnil : lexUses chars part = []
    · simp [hnil]
    · simp [hnil]
  rw [himports, flatMap_if, flatMap_if, keptParts, List.filter_comm, map_filter_eq_iff]
  simp only [List.mem_filter, decide_eq_true_eq, and_imp]
  refine forall_congr' fun part => forall_congr' fun _ => forall_congr' fun htokens => ?_
  rw [decide_eq_decide, and_iff_right (strip_ne_nil_of_lexUses htokens)]
  exact not_iff_comm.trans Iff.comm

/-! ## One statement -/

/-- No tokens make no import. -/
theorem not_isLibcUse_nil : ¬ IsLibcUse chars [] := by
  rintro ⟨front, tree, hcore, -⟩
  exact absurd hcore.symm (List.append_ne_nil_of_right_ne_nil front (List.cons_ne_nil _ _))

/-- **What may follow the text before a keyword.** -/
theorem isStripped_append {defined : List (List Char)} {lead core out : List Char} {isUse : IsLibcUse chars core} :
    IsStripped defined (lead ++ out) (.imports lead core isUse) ↔
      ((useImports chars core).filter (Free defined ·) = [] ∧ lead = [] ∧ out = []) ∨
        (IsLibcUse chars out ∧ useImports chars out = (useImports chars core).filter (Free defined ·)) := by
  constructor
  · rintro (⟨hnil, hout⟩ | ⟨core', huse, himports, hout⟩)
    · exact .inl ⟨hnil, List.append_eq_nil_iff.mp hout⟩
    · obtain rfl := List.append_cancel_left hout
      exact .inr ⟨huse, himports⟩
  · rintro (⟨hnil, rfl, rfl⟩ | ⟨huse, himports⟩)
    · exact .inl ⟨hnil, rfl⟩
    · exact .inr ⟨out, huse, himports, rfl⟩

/-- A statement that is read as a group is a group from end to end. -/
theorem useForm_group {core body : List Char} (h : useForm chars core = .group body) :
    groupUse? chars core = some (body, []) := by
  unfold useForm at h
  split at h
  · rename_i hgroup
    rw [hgroup, UseForm.group.inj h]
  · cases h
  · cases h

/-- A statement that is read as a single import is one from end to end. -/
theorem useForm_single {core name : List Char} (h : useForm chars core = .single name) :
    singleUse? chars core = some (name, []) := by
  unfold useForm at h
  split at h
  · cases h
  · rename_i hsingle _
    rw [hsingle, UseForm.single.inj h]
  · cases h

/-- **A group is stripped** exactly if the right parts are left out, and nothing is before it when all are. -/
theorem isStripped_group {localNames : Finset (List Char)} {defined : List (List Char)} {lead core body : List Char}
    {isUse : IsLibcUse chars core} (h : groupUse? chars core = some (body, []))
    (hcloses : ∀ part ∈ body.splitOn ',', Closes chars part)
    (hkept : ∀ part ∈ keptParts chars localNames body, Closes chars (stripBlanks chars part)) :
    IsStripped defined (lead ++ replBraced chars localNames body) (.imports lead core isUse) ↔
      (∀ part ∈ body.splitOn ',', lexUses chars part ≠ [] →
        (IsLocal chars localNames part ↔ ¬ Free defined (importOf [['l', 'i', 'b', 'c']] (lexUses chars part)))) ∧
      (keptParts chars localNames body = [] → lead = []) := by
  obtain ⟨gap, gap', hgap, hbrace, hgap', rfl⟩ := groupUse?_eq_some.mp h
  obtain ⟨hparts, hshapes⟩ := parts_of_isLibcUse hgap hgap' hbrace isUse hcloses
  have himports : useImports chars (groupCore gap body gap' []) =
      (body.splitOn ',').flatMap (partImports chars) := by
    have hgroup := useImports_group hgap hgap' hcloses hshapes
    rwa [List.intercalate_splitOn] at hgroup
  rw [isStripped_append, himports, ← flatMap_keptParts_iff]
  by_cases hnil : keptParts chars localNames body = []
  · -- the group is gone, and what is before it stays
    have hout : replBraced chars localNames body = [] := by rw [replBraced, hnil]; rfl
    rw [hout, hnil, List.flatMap_nil]
    constructor
    · rintro (⟨himports, hlead, -⟩ | ⟨huse, -⟩)
      · exact ⟨himports.symm, fun _ => hlead⟩
      · exact absurd huse not_isLibcUse_nil
    · rintro ⟨himports, hlead⟩
      exact .inl ⟨himports.symm, hlead rfl, rfl⟩
  · have hout : replBraced chars localNames body =
        groupText [] ['l', 'i', 'b', 'c'] ((keptParts chars localNames body).map (stripBlanks chars)) :=
      if_neg (by simpa using hnil)
    obtain ⟨parts, htext, hclosed, htokens⟩ := groupText_eq_groupCore hnil hkept
    have hblank : IsBlanks chars [' '] := ⟨List.cons_ne_nil _ _, fun c hc => by
      rw [List.mem_singleton.mp hc]
      exact chars.space_ascii ' ' (by decide)⟩
    have hnone : Blanks chars [] := fun c hc => absurd hc List.not_mem_nil
    have hsub : (keptParts chars localNames body).Sublist (body.splitOn ',') := List.filter_sublist
    have huse : IsLibcUse chars (replBraced chars localNames body) := by
      rw [hout, htext]
      refine isLibcUse_group hblank hnone hclosed ?_
      rw [htokens]
      exact hparts.sublist (hsub.map _)
    have hshapes' : ∀ part ∈ parts, ∀ token ∈ lexUses chars part, token ∉ shapes := by
      intro part hpart
      have hmem : lexUses chars part ∈ (keptParts chars localNames body).map (lexUses chars) :=
        htokens ▸ List.mem_map_of_mem hpart
      obtain ⟨own, hown, heq⟩ := List.mem_map.mp hmem
      rw [← heq]
      exact hshapes own (hsub.subset hown)
    have hkeptImports : useImports chars (replBraced chars localNames body) =
        (keptParts chars localNames body).flatMap (partImports chars) := by
      have hmap : ∀ l : List (List Char), l.flatMap (partImports chars) =
          (l.map (lexUses chars)).flatMap (importOf? [['l', 'i', 'b', 'c']]) := fun l => by
        rw [List.flatMap_map]
        rfl
      rw [hout, htext, useImports_group hblank hnone hclosed hshapes', hmap, ← htokens, ← hmap]
      rfl
    rw [hkeptImports]
    constructor
    · rintro (⟨-, -, hgone⟩ | ⟨-, himports⟩)
      · exact absurd (hgone ▸ huse) not_isLibcUse_nil
      · exact ⟨himports, fun h => absurd h hnil⟩
    · exact fun h => .inr ⟨huse, h.1⟩

/-- **A name is stripped** exactly if it is left out when its import is not free, and nothing is before it then. -/
theorem isStripped_single {localNames : Finset (List Char)} {defined : List (List Char)} {lead core name : List Char}
    {isUse : IsLibcUse chars core} (h : singleUse? chars core = some (name, [])) :
    IsStripped defined (lead ++ replSingle localNames core name) (.imports lead core isUse) ↔
      (∀ i ∈ useImports chars core, name ∈ localNames ↔ ¬ Free defined i) ∧ (name ∈ localNames → lead = []) := by
  obtain ⟨gap, gap', hgap, hne, hname, hgap', rfl⟩ := singleUse?_eq_some.mp h
  have himports : ∃ i, useImports chars (singleCore gap name gap' []) = [i] := by
    have hfront : singleCore gap name gap' [] = (['u', 's', 'e'] ++ (gap ++ (libcColons ++ (name ++ gap')))) ++
        [';'] := by
      simp [singleCore]
    have hslash : '/' ∉ name := notMem_of_not_word hname (not_word_ascii (by decide) (by decide))
    rw [useImports, hfront, List.dropLast_concat, lexUses_useLibc hgap,
      lexUses_append_blanks (closes_of_notMem hslash) hgap', lexUses_word hne hname]
    exact ⟨_, rfl⟩
  obtain ⟨i, himports⟩ := himports
  rw [isStripped_append, himports, List.forall_mem_singleton, replSingle]
  by_cases hlocal : name ∈ localNames
  · rw [if_pos hlocal]
    simp only [hlocal, true_iff, forall_true_left]
    constructor
    · rintro (⟨hfree, hlead, -⟩ | ⟨huse, -⟩)
      · exact ⟨by simpa using hfree, hlead⟩
      · exact absurd huse not_isLibcUse_nil
    · rintro ⟨hfree, hlead⟩
      exact .inl ⟨by simpa using hfree, hlead, trivial⟩
  · rw [if_neg hlocal]
    simp only [hlocal, false_iff, not_not, false_implies, and_true, himports]
    constructor
    · rintro (⟨-, -, hgone⟩ | ⟨-, hkept⟩)
      · exact absurd (hgone ▸ isUse) not_isLibcUse_nil
      · have hmem : i ∈ [i].filter (Free defined ·) := hkept ▸ List.mem_cons_self
        exact of_decide_eq_true (List.mem_filter.mp hmem).2
    · exact fun hfree => .inr ⟨isUse, (List.filter_eq_self.mpr (by simpa using hfree)).symm⟩

/-- **A part is stripped exactly if its names are met.** -/
theorem isStripped_stripped_iff {localNames : Finset (List Char)} {defined : List (List Char)} {part : SourcePart chars}
    (hends : part.CommentsEnd localNames) :
    IsStripped defined (part.stripped localNames) part ↔ part.MeetsNames localNames defined := by
  cases part with
  | item before name after => exact iff_of_true rfl trivial
  | other text => exact iff_of_true rfl trivial
  | imports lead core isUse =>
    unfold SourcePart.CommentsEnd UseForm.CommentsEnd at hends
    unfold SourcePart.MeetsNames SourcePart.stripped UseForm.MeetsNames
    cases hform : useForm chars core with
    | group body =>
      simp only [hform] at hends ⊢
      exact isStripped_group (useForm_group hform) hends.1 hends.2
    | single name =>
      simp only [hform]
      exact isStripped_single (useForm_single hform)
    | other =>
      simp only [hform]
      rw [isStripped_append]
      constructor
      · rintro (⟨-, -, hgone⟩ | ⟨-, hkept⟩)
        · exact absurd (hgone ▸ isUse) not_isLibcUse_nil
        · intro i hi
          rw [hkept] at hi
          exact of_decide_eq_true (List.mem_filter.mp hi).2
      · exact fun hfree => .inr ⟨isUse, (List.filter_eq_self.mpr fun i hi => decide_eq_true (hfree i hi)).symm⟩

/-! ## The whole source -/

/-- The pieces of the first pass are the source. -/
theorem piecesText_groupPieces (source : List (SourcePart chars)) :
    piecesText (source.flatMap SourcePart.groupPieces) = partsText source := by
  rw [piecesText, List.flatMap_assoc, partsText]
  refine congrArg (source.flatMap ·) (funext fun part => ?_)
  cases part with
  | item before name after => exact List.append_nil _
  | other text => exact List.append_nil _
  | imports lead core isUse =>
    simp only [SourcePart.groupPieces, SourcePart.text]
    cases useForm chars core <;> simp

/-- **What the first pass makes of them** are the pieces of the second. -/
theorem piecesText_singlePieces (localNames : Finset (List Char)) (source : List (SourcePart chars)) :
    (source.flatMap SourcePart.groupPieces).flatMap
        (Sum.elim id fun found => replBraced chars localNames found.2) =
      piecesText (source.flatMap (SourcePart.singlePieces localNames)) := by
  rw [piecesText, List.flatMap_assoc, List.flatMap_assoc]
  refine congrArg (source.flatMap ·) (funext fun part => ?_)
  cases part with
  | item before name after => rfl
  | other text => rfl
  | imports lead core isUse =>
    simp only [SourcePart.groupPieces, SourcePart.singlePieces]
    cases useForm chars core <;> rfl

/-- **What the second pass makes of those.** -/
theorem flatMap_singlePieces (localNames : Finset (List Char)) (source : List (SourcePart chars)) :
    (source.flatMap (SourcePart.singlePieces localNames)).flatMap
        (Sum.elim id fun found => replSingle localNames found.1 found.2) =
      source.flatMap (SourcePart.stripped localNames) := by
  rw [List.flatMap_assoc]
  refine congrArg (source.flatMap ·) (funext fun part => ?_)
  cases part with
  | item before name after => exact List.append_nil _
  | other text => exact List.append_nil _
  | imports lead core isUse =>
    simp only [SourcePart.singlePieces, SourcePart.stripped]
    cases useForm chars core <;> simp

/-- **The passes strip every part by itself.** -/
theorem stripCollidingLibcImports_eq {source : List (SourcePart chars)}
    (h : Undisturbed (localDefinitions chars (partsText source)) source) :
    stripCollidingLibcImports chars (partsText source) =
      source.flatMap (SourcePart.stripped (localDefinitions chars (partsText source))) := by
  rw [stripCollidingLibcImports]
  generalize localDefinitions chars (partsText source) = localNames at h ⊢
  rw [← piecesText_groupPieces source,
    subAll_of_clear (fun _ _ _ hmatch => groupUse?_shortens hmatch)
      (fun _ _ _ rest hmatch => groupUse?_append hmatch rest)
      h.1,
    piecesText_singlePieces,
    subAll_of_clear (fun _ _ _ hmatch => singleUse?_shortens hmatch)
      (fun _ _ _ rest hmatch => singleUse?_append hmatch rest) h.2,
    flatMap_singlePieces]

/-- **`stripCollidingLibcImports` takes out what the source defines** if the patterns match its statements and nothing
else, the comments in the groups end between the commas, and the local names are those that are bound and defined. A
part for which they are not is the one that goes wrong. -/
theorem stripCollidingLibcImports_strips (source : List (SourcePart chars))
    (hpieces : Undisturbed (localDefinitions chars (partsText source)) source)
    (hends : ∀ part ∈ source, part.CommentsEnd (localDefinitions chars (partsText source))) :
    stripCollidingLibcImports chars (partsText source) =
        source.flatMap (SourcePart.stripped (localDefinitions chars (partsText source))) ∧
      (∀ part ∈ source,
        IsStripped (definedNames source) (part.stripped (localDefinitions chars (partsText source))) part ↔
          part.MeetsNames (localDefinitions chars (partsText source)) (definedNames source)) ∧
      ((∀ part ∈ source, part.MeetsNames (localDefinitions chars (partsText source)) (definedNames source)) →
        StripsCollisions source (stripCollidingLibcImports chars (partsText source))) := by
  have heq := stripCollidingLibcImports_eq hpieces
  have hparts : ∀ part ∈ source,
      IsStripped (definedNames source) (part.stripped (localDefinitions chars (partsText source))) part ↔
        part.MeetsNames (localDefinitions chars (partsText source)) (definedNames source) :=
    fun part hpart => isStripped_stripped_iff (hends part hpart)
  refine ⟨heq, hparts, fun hmeets => ⟨source.map (SourcePart.stripped (localDefinitions chars (partsText source))), ?_, ?_⟩⟩
  · rw [List.forall₂_map_right_iff, List.forall₂_same]
    exact fun part hpart => (hparts part hpart).mpr (hmeets part hpart)
  · rw [heq, List.flatMap_def]

/-! ## Two sources -/

/-- `use libc::{size_t, FILE};` and a definition of `size_t`. -/
def groupImport : List (SourcePart .ascii) :=
  [.imports [] ['u', 's', 'e', ' ', 'l', 'i', 'b', 'c', ':', ':', '{', 's', 'i', 'z', 'e', '_', 't', ',', ' ',
      'F', 'I', 'L', 'E', '}', ';']
      ⟨['u', 's', 'e', ' ', 'l', 'i', 'b', 'c', ':', ':', '{', 's', 'i', 'z', 'e', '_', 't', ',', ' ',
        'F', 'I', 'L', 'E', '}'], _, rfl, by decide, by decide, rfl,
        @AreParts.isTree [[.word ['s', 'i', 'z', 'e', '_', 't']], [.word ['F', 'I', 'L', 'E']]]
          ⟨by simp [IsTree.name], by decide⟩⟩,
    .item ['\n', 't', 'y', 'p', 'e', ' '] ['s', 'i', 'z', 'e', '_', 't'] [' ', '=', ' ', 'u', '6', '4', ';']]

/-- The name is taken out of the group. -/
theorem groupImport_strips :
    StripsCollisions groupImport (stripCollidingLibcImports .ascii (partsText groupImport)) :=
  (stripCollidingLibcImports_strips groupImport (by decide +kernel) (by decide +kernel)).2.2 (by decide +kernel)

/-- `pub use libc::size_t;` and a definition of `size_t`. -/
def publicImport : List (SourcePart .ascii) :=
  [.imports ['p', 'u', 'b', ' '] ['u', 's', 'e', ' ', 'l', 'i', 'b', 'c', ':', ':', 's', 'i', 'z', 'e', '_', 't', ';']
      ⟨['u', 's', 'e', ' ', 'l', 'i', 'b', 'c', ':', ':', 's', 'i', 'z', 'e', '_', 't'], _, rfl, by decide, by decide,
        rfl, .name _⟩,
    .item ['\n', 't', 'y', 'p', 'e', ' '] ['s', 'i', 'z', 'e', '_', 't'] [' ', '=', ' ', 'u', '6', '4', ';']]

/-- The `pub` of the import is left behind. -/
theorem publicImport_not :
    ¬ StripsCollisions publicImport (stripCollidingLibcImports .ascii (partsText publicImport)) := by
  have hout : stripCollidingLibcImports .ascii (partsText publicImport) = ['p', 'u', 'b', ' ', '\n', 't', 'y', 'p', 'e',
      ' ', 's', 'i', 'z', 'e', '_', 't', ' ', '=', ' ', 'u', '6', '4', ';'] := by
    decide +kernel
  rintro ⟨outs, hforall, hflat⟩
  rw [hout] at hflat
  obtain ⟨first, rest, hfirst, hrest, rfl⟩ := List.forall₂_cons_left_iff.mp hforall
  obtain ⟨second, rest, hsecond, hnil, rfl⟩ := List.forall₂_cons_left_iff.mp hrest
  obtain rfl := List.forall₂_nil_left_iff.mp hnil
  obtain rfl : second = _ := hsecond
  rw [List.flatten_cons, List.flatten_singleton] at hflat
  have hpub : first = ['p', 'u', 'b', ' '] := (List.append_cancel_right (hflat.trans rfl)).symm
  subst hpub
  rcases isStripped_append.mp (show IsStripped _ (['p', 'u', 'b', ' '] ++ []) _ from hfirst) with ⟨-, hlead, -⟩ |
    ⟨huse, -⟩
  · exact absurd hlead (List.cons_ne_nil _ _)
  · exact not_isLibcUse_nil huse

end Imports

end Assure
