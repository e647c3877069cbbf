import Mathlib.Algebra.Order.Ring.Nat
import Assure.Library.Collections
import Assure.Library.Cutting
import Assure.Library.PostOrder
import Assure.Library.Worklist
import Assure.Types.UnionLifting

/-!
# The type aliases that a definition needs

A Rust definition needs the type aliases that it mentions, and those that these mention. They are found twice:
`extractReferencedRustTypeAliasDefinitions` goes through the mentions depth first and lists what an alias needs
before the alias; `appendDependentTypeAliases` goes through them breadth first and puts the aliases behind the
definition. The one looks for each name in a text, the other for the names that stand in it; both are whole words,
so both find the same (`found_iff_mem`), and so do the searches.

How deep calls may be nested is left open.
-/

namespace Assure

open Assure.Library Pattern
open scoped BigOperators

variable (chars : CharClass)

/-! ## The aliases of a text -/

/-- `[A-Za-z_][A-Za-z0-9_]*` -/
def aliasIdentifier : Pattern (List Char) := do
  let c ← one isNameStart
  let cs ← many isNameChar
  return c :: cs

/-- `(?m)^\s*(?:pub\s+)?type\s+NAME\s*=` -/
def aliasHead {α : Type} (aliasName : Pattern α) : Pattern α := do
  Pattern.lineStart
  let _ ← many chars.space
  optional do
    lit "pub"
    let _ ← many1 chars.space
  lit "type"
  let _ ← many1 chars.space
  let name ← aliasName
  let _ ← many chars.space
  lit "="
  return name

/-- The place where a match begins. -/
def matchStart : Pattern Cursor := fun cursor => [(cursor, cursor)]

/-- **`extractTypeAliasDefinitionByName`**. A match begins at the beginning of a line, so nothing of the line is
before it. -/
def extractTypeAliasDefinitionByName (code aliasName : String) : String :=
  if aliasName = "" then ""
  else
    match (do
      let start ← matchStart
      aliasHead chars (lit aliasName)
      return start).search code with
    | none => ""
    | some (start, after) =>
      let rest := (after.rest.dropWhile (· ≠ ';')).drop 1
      strip chars (String.ofList (start.rest.take (start.rest.length - rest.length)))

/-- **`extractRustTypeAliases`** -/
def extractRustTypeAliases (code : String) : Dict String String :=
  ((aliasHead chars aliasIdentifier).findAll code.toList).foldl (fun aliases name =>
    let aliasName := String.ofList name
    let aliasDefinition := extractTypeAliasDefinitionByName chars code aliasName
    if aliasDefinition = "" then aliases else aliases.insert aliasName aliasDefinition) .empty

/-! ## Depth first -/

/-- The variables of `visit`. -/
structure AliasWalk where
  visited : Finset String
  visiting : Finset String
  orderedDefinitions : List String

/-- **`visit`**, with calls nested so deep. -/
def visitAlias (aliasDefinitions : Dict String String) : Nat → String → AliasWalk → Option AliasWalk
  | 0, _, _ => none
  | fuel + 1, aliasName, s =>
    if aliasName ∈ s.visited ∨ aliasName ∈ s.visiting then some s
    else
      match aliasDefinitions.get? aliasName with
      | none => some s
      | some aliasDefinition =>
        (aliasDefinitions.keys.foldlM (fun s dependencyName =>
          if dependencyName = aliasName then some s
          else if (wholeWord chars dependencyName).found aliasDefinition = true then
            visitAlias aliasDefinitions fuel dependencyName s
          else some s) { s with visiting := insert aliasName s.visiting }).map fun s =>
            ⟨insert aliasName s.visited, s.visiting.erase aliasName, s.orderedDefinitions ++ [aliasDefinition]⟩

/-- **`extractReferencedRustTypeAliasDefinitions`**, with calls of `visit` nested as deep as there are aliases. -/
def extractReferencedRustTypeAliasDefinitions (code rootDefinition : String) : Option (List String) :=
  let aliasDefinitions := extractRustTypeAliases chars code
  if aliasDefinitions.keys = [] ∨ rootDefinition = "" then some []
  else
    (aliasDefinitions.keys.foldlM (fun s aliasName =>
      if (wholeWord chars aliasName).found rootDefinition = true then
        visitAlias chars aliasDefinitions (aliasDefinitions.keys.toFinset.card + 1) aliasName s
      else some s) ⟨∅, ∅, []⟩).map AliasWalk.orderedDefinitions

/-! ## Breadth first -/

/-- `\b[A-Za-z_][A-Za-z0-9_]*\b` -/
def wholeIdentifier : Pattern (List Char) := do
  boundary chars
  let name ← aliasIdentifier
  boundary chars
  return name

/-- **`extractIdentifiers`** -/
def extractIdentifiers (snippet : String) : Finset String :=
  (((wholeIdentifier chars).findAll snippet.toList).map String.ofList).toFinset

/-- The variables of the loop. -/
structure AliasQueue where
  queue : List String
  seenAliases : Finset String
  includedAliases : List String

variable (order : SetOrder String)

/-- The identifiers of a text that are aliases, in the order in which the set is gone through. -/
def mentionedAliases (aliasMap : Dict String String) (snippet : String) : List String :=
  (order.toList (extractIdentifiers chars snippet)).filter (· ∈ aliasMap.keys)

/-- **One pass of the loop.** -/
def AliasQueue.pass (aliasMap : Dict String String) (s : AliasQueue) : Option AliasQueue :=
  match s.queue with
  | [] => none
  | aliasName :: queue =>
    if aliasName ∈ s.seenAliases then some { s with queue }
    else
      let seenAliases := insert aliasName s.seenAliases
      let aliasDefinition := (aliasMap.get? aliasName).getD ""
      if aliasDefinition = "" then some ⟨queue, seenAliases, s.includedAliases⟩
      else
        some ⟨queue ++ (mentionedAliases chars order aliasMap aliasDefinition).filter (· ∉ seenAliases), seenAliases,
          s.includedAliases ++ [aliasDefinition]⟩

/-- The aliases that `appendDependentTypeAliases` includes. The passes are no more than there are mentions. -/
def includedTypeAliases (fullCode structDefinition : String) : Option (List String) :=
  let aliasMap := extractRustTypeAliases chars fullCode
  let queue := mentionedAliases chars order aliasMap structDefinition
  let passes := queue.length + (aliasMap.keys.map fun aliasName =>
    (mentionedAliases chars order aliasMap ((aliasMap.get? aliasName).getD "")).length).sum
  (whileLoop (fun s => !s.queue.isEmpty) (AliasQueue.pass chars order aliasMap) passes ⟨queue, ∅, []⟩).map
    AliasQueue.includedAliases

/-- **`appendDependentTypeAliases`** -/
def appendDependentTypeAliases (fullCode structDefinition : String) : Option String :=
  if structDefinition = "" ∨ (extractRustTypeAliases chars fullCode).keys = [] then some structDefinition
  else
    (includedTypeAliases chars order fullCode structDefinition).map fun includedAliases =>
      if includedAliases = [] then structDefinition
      else structDefinition ++ "\n\n" ++ "\n\n".intercalate includedAliases

/-! ## Names as whole words -/

variable {chars}

/-- A name that an alias can have. -/
def IsAliasName (name : List Char) : Prop :=
  ∃ c cs, name = c :: cs ∧ isNameStart c = true ∧ ∀ d ∈ cs, isNameChar d = true

/-- The name of an alias is made of characters of names. -/
theorem IsAliasName.nameChars {name : List Char} (h : IsAliasName name) : ∀ c ∈ name, isNameChar c = true := by
  obtain ⟨c, cs, rfl, hc, hcs⟩ := h
  exact List.forall_mem_cons.mpr ⟨isNameChar_of_start hc, hcs⟩

/-- It is not empty. -/
theorem IsAliasName.ne_nil {name : List Char} (h : IsAliasName name) : name ≠ [] := by
  obtain ⟨c, cs, rfl, -, -⟩ := h
  exact List.cons_ne_nil c cs

/-- Behind characters of a name there is one of a word. -/
theorem lastOr_word (chars : CharClass) {name : List Char} (hne : name ≠ []) (h : ∀ c ∈ name, isNameChar c = true)
    (before : Option Char) : (lastOr before name).any chars.word = true := by
  obtain ⟨front, c, rfl⟩ := List.eq_nil_or_concat name |>.resolve_left hne
  rw [lastOr, List.concat_eq_append, List.getLast?_concat, Option.some_or, Option.any_some]
  exact word_of_isNameChar (h c (by simp))

/-- The pattern of an identifier takes a name. -/
theorem of_mem_aliasIdentifier {cursor : Cursor} {way : List Char × Cursor} (h : way ∈ aliasIdentifier cursor) :
    IsAliasName way.1 ∧ cursor.rest = way.1 ++ way.2.rest := by
  obtain ⟨first, hfirst, h⟩ := mem_bind.mp h
  obtain ⟨more, hmore, h⟩ := mem_bind.mp h
  obtain ⟨hrest, hc⟩ := of_mem_one hfirst
  obtain ⟨hrest', hcs⟩ := of_mem_many hmore
  obtain rfl : way = (first.1 :: more.1, more.2) := List.mem_singleton.mp h
  refine ⟨⟨first.1, more.1, rfl, hc, hcs⟩, ?_⟩
  rw [hrest, hrest', List.cons_append]

/-- The character before the end of a name. -/
theorem before_of_mem_aliasIdentifier {cursor : Cursor} {way : List Char × Cursor}
    (h : way ∈ aliasIdentifier cursor) : way.2.before = lastOr cursor.before way.1 := by
  obtain ⟨first, hfirst, h⟩ := mem_bind.mp h
  obtain ⟨more, hmore, h⟩ := mem_bind.mp h
  obtain rfl : way = (first.1 :: more.1, more.2) := List.mem_singleton.mp h
  obtain ⟨hrest, hc⟩ := of_mem_one hfirst
  obtain ⟨before, rest⟩ := cursor
  have hrest : rest = first.1 :: first.2.rest := hrest
  have hbefore : first.2.before = some first.1 := by
    rw [hrest, one, if_pos hc] at hfirst
    rw [List.mem_singleton.mp hfirst]
  show more.2.before = lastOr before (first.1 :: more.1)
  rw [before_of_mem_many hmore, hbefore, lastOr_cons]

/-- What `\b…\b` finds. -/
theorem mem_wholeIdentifier {cursor : Cursor} {way : List Char × Cursor} :
    way ∈ wholeIdentifier chars cursor ↔ AtBoundary chars cursor.before cursor.rest ∧
      way ∈ aliasIdentifier cursor ∧ AtBoundary chars way.2.before way.2.rest := by
  constructor
  · intro h
    obtain ⟨first, hfirst, h⟩ := mem_bind.mp h
    obtain ⟨rfl, hat⟩ := mem_boundary.mp hfirst
    obtain ⟨name, hname, h⟩ := mem_bind.mp h
    obtain ⟨last, hlast, h⟩ := mem_bind.mp h
    obtain ⟨rfl, hend⟩ := mem_boundary.mp hlast
    obtain rfl : way = name := List.mem_singleton.mp h
    exact ⟨hat, hname, hend⟩
  · rintro ⟨hat, hname, hend⟩
    refine mem_bind.mpr ⟨((), cursor), mem_boundary.mpr ⟨rfl, hat⟩, mem_bind.mpr ⟨way, hname, ?_⟩⟩
    exact mem_bind.mpr ⟨((), way.2), mem_boundary.mpr ⟨rfl, hend⟩, List.mem_singleton_self _⟩

/-- **A name at a place is what is found there.** -/
theorem wholeIdentifier_head {name rest : List Char} (hname : IsAliasName name) {before : Option Char}
    (hat : AtBoundary chars before (name ++ rest)) (hend : rest.head?.any chars.word = false) :
    (wholeIdentifier chars ⟨before, name ++ rest⟩).head? = some (name, ⟨lastOr before name, rest⟩) := by
  obtain ⟨c, cs, rfl, hc, hcs⟩ := id hname
  have hstop : rest.head?.any isNameChar = false := by
    cases rest with
    | nil => rfl
    | cons d rest =>
      rw [List.head?_cons, Option.any_some] at hend ⊢
      by_contra hd
      rw [word_of_isNameChar (by simpa using hd)] at hend
      cases hend
  have hmany := many_greedy hstop cs (some c) hcs
  have hident : (aliasIdentifier ⟨before, c :: cs ++ rest⟩).head? =
      some (c :: cs, ⟨lastOr before (c :: cs), rest⟩) := by
    show (((one isNameStart) ⟨before, c :: (cs ++ rest)⟩).flatMap fun way =>
      (many isNameChar way.2).flatMap fun more => [(way.1 :: more.1, more.2)]).head? = _
    rw [one, if_pos hc, List.flatMap_singleton, lastOr_cons]
    cases hways : many isNameChar ⟨some c, cs ++ rest⟩ with
    | nil => rw [hways] at hmany; cases hmany
    | cons way ways =>
      rw [hways] at hmany
      rw [Option.some.inj hmany]
      rfl
  have hbound : boundary chars ⟨before, c :: cs ++ rest⟩ = [((), ⟨before, c :: cs ++ rest⟩)] :=
    if_pos (bne_iff_ne.mpr hat)
  have hlast : AtBoundary chars (lastOr before (c :: cs)) rest := by
    rw [AtBoundary, lastOr_word chars (List.cons_ne_nil c cs) hname.nameChars, hend]
    exact Bool.noConfusion
  have hboundEnd : boundary chars ⟨lastOr before (c :: cs), rest⟩ = [((), ⟨lastOr before (c :: cs), rest⟩)] :=
    if_pos (bne_iff_ne.mpr hlast)
  show ((boundary chars ⟨before, c :: cs ++ rest⟩).flatMap fun way =>
    (aliasIdentifier way.2).flatMap fun name => (boundary chars name.2).flatMap fun last =>
      [(name.1, last.2)]).head? = _
  rw [hbound, List.flatMap_singleton]
  cases hways : aliasIdentifier ⟨before, c :: cs ++ rest⟩ with
  | nil => rw [hways] at hident; cases hident
  | cons way ways =>
    rw [hways] at hident
    rw [List.flatMap_cons, Option.some.inj hident, hboundEnd]
    rfl

/-- **The names in a text are those that stand there as whole words.** -/
theorem found_iff_mem {name : String} (hname : IsAliasName name.toList) (text : String) :
    (wholeWord chars name).found text = true ↔ name ∈ extractIdentifiers chars text := by
  have hne := hname.ne_nil
  have hlast : ∀ front : List Char, lastOr none front = front.getLast?.or none := fun _ => rfl
  rw [found_iff, extractIdentifiers, List.mem_toFinset, List.mem_map]
  constructor
  · rintro ⟨front, rest, htext, hways⟩
    obtain ⟨way, hway⟩ := List.exists_mem_of_ne_nil _ hways
    obtain ⟨first, hfirst, hway⟩ := mem_bind.mp hway
    obtain ⟨rfl, hat⟩ := mem_boundary.mp hfirst
    obtain ⟨word, hword, hway⟩ := mem_bind.mp hway
    obtain ⟨-, hend⟩ := mem_boundary.mp hway
    have hrest : rest = name.toList ++ word.2.rest := of_mem_chars hword
    have hword : word ∈ Pattern.chars name.toList ⟨lastOr none front, rest⟩ := hword
    rw [hrest, chars_append] at hword
    have hbefore : word.2.before = lastOr (lastOr none front) name.toList := by rw [List.mem_singleton.mp hword]
    rw [hbefore, AtBoundary, lastOr_word chars hne hname.nameChars] at hend
    have hstop : word.2.rest.head?.any chars.word = false := Bool.eq_false_iff.mpr (Ne.symm hend)
    refine ⟨name.toList, ?_, String.ofList_toList⟩
    rw [Pattern.findAll, mem_findAll, htext]
    have hmatch : ((wholeIdentifier chars ⟨front.getLast?.or none, rest⟩).head?.map fun way =>
        (way.1, way.2.rest)) = some (name.toList, word.2.rest) := by
      rw [hrest] at hat ⊢
      rw [← hlast, wholeIdentifier_head hname hat hstop, Option.map_some]
    refine mem_splitMatches_of_match ?_ (Nat.zero_le _) hmatch ?_
    · rw [hrest]
      exact fun hnil => hne (List.append_eq_nil_iff.mp hnil).1
    · -- a name that begins before and goes on here would have no boundary here
      intro front' gap found' after' hfront hgap hmatch
      by_contra hshort
      obtain ⟨way, hway, heq⟩ := Option.map_eq_some_iff.mp hmatch
      obtain ⟨rfl, rfl⟩ := Prod.mk.inj heq
      obtain ⟨-, hident, -⟩ := mem_wholeIdentifier.mp (List.mem_of_head? hway)
      obtain ⟨hother, htaken⟩ := of_mem_aliasIdentifier hident
      have htaken : gap ++ rest = way.1 ++ way.2.rest := htaken
      rcases List.append_eq_append_iff.mp htaken with ⟨middle, hmiddle, hsplit⟩ | ⟨middle, -, hsplit⟩
      · -- the name ends in the rest
        have hmne : middle ≠ [] := by
          rintro rfl
          rw [List.nil_append] at hsplit
          rw [hsplit] at hshort
          exact hshort le_rfl
        obtain ⟨d, middle, rfl⟩ := List.exists_cons_of_ne_nil hmne
        have hd : chars.word d = true := word_of_isNameChar (hother.nameChars d (by rw [hmiddle]; simp))
        have hgapWord := lastOr_word chars hgap
          (fun c hc => hother.nameChars c (by rw [hmiddle]; exact List.mem_append_left _ hc)) (lastOr none front')
        have hfrontLast : lastOr none front = lastOr (lastOr none front') gap := by
          rw [hfront, lastOr, lastOr, lastOr, List.getLast?_append]
          cases gap.getLast? <;> rfl
        rw [AtBoundary, hfrontLast, hgapWord, hsplit, List.cons_append, List.head?_cons, Option.any_some, hd] at hat
        exact hat rfl
      · -- it ends in the gap
        have := congrArg List.length hsplit
        rw [List.length_append] at this
        omega
  · rintro ⟨letters, hletters, rfl⟩
    rw [Pattern.findAll, mem_findAll] at hletters
    obtain ⟨piece, hpiece⟩ := hletters
    obtain ⟨front, rest, after, htext, hmatch, -⟩ := match_of_mem_splitMatches hpiece
    obtain ⟨way, hway, heq⟩ := Option.map_eq_some_iff.mp hmatch
    obtain ⟨rfl, rfl⟩ := Prod.mk.inj heq
    obtain ⟨hat, hident, hend⟩ := mem_wholeIdentifier.mp (List.mem_of_head? hway)
    obtain ⟨-, htaken⟩ := of_mem_aliasIdentifier hident
    have htaken : rest = way.1 ++ way.2.rest := htaken
    refine ⟨front, rest, htext, List.ne_nil_of_mem (a := ((), way.2)) ?_⟩
    refine mem_bind.mpr ⟨_, mem_boundary.mpr ⟨rfl, hat⟩, mem_bind.mpr ⟨((), way.2), ?_, mem_boundary.mpr ⟨rfl, hend⟩⟩⟩
    show _ ∈ Pattern.chars (String.ofList way.1).toList ⟨lastOr none front, rest⟩
    rw [String.toList_ofList, htaken, chars_append, ← hlast, List.mem_singleton] at *
    have hbefore := before_of_mem_aliasIdentifier hident
    exact Prod.ext rfl (by rw [← hbefore])

/-! ## What is known of the aliases -/

/-- What stands before the name of an alias. -/
structure AliasLead (chars : CharClass) (visibility blanks : List Char) : Prop where
  visibility : visibility = [] ∨ ∃ more, visibility = "pub".toList ++ more ∧ ∀ c ∈ more, chars.space c = true
  blanks : ∀ c ∈ blanks, chars.space c = true

/-- **The head of an alias has been taken.** -/
theorem of_mem_aliasHead {α : Type} {aliasName : Pattern α} {cursor : Cursor} {way : α × Cursor}
    (h : way ∈ aliasHead chars aliasName cursor) : ∃ indent visibility blanks place found blanks',
      found ∈ aliasName place ∧ way.1 = found.1 ∧ AliasLead chars visibility blanks ∧
      cursor.rest = indent ++ (visibility ++ ("type".toList ++ (blanks ++ place.rest))) ∧
      found.2.rest = blanks' ++ '=' :: way.2.rest ∧ (∀ c ∈ indent ++ blanks', chars.space c = true) := by
  obtain ⟨line, hline, h⟩ := mem_bind.mp h
  obtain ⟨indent, hindent, h⟩ := mem_bind.mp h
  obtain ⟨visibility, hvisibility, h⟩ := mem_bind.mp h
  obtain ⟨keyword, hkeyword, h⟩ := mem_bind.mp h
  obtain ⟨blanks, hblanks, h⟩ := mem_bind.mp h
  obtain ⟨found, hfound, h⟩ := mem_bind.mp h
  obtain ⟨blanks', hblanks', h⟩ := mem_bind.mp h
  obtain ⟨equals, hequals, h⟩ := mem_bind.mp h
  have hway : way = (found.1, equals.2) := List.mem_singleton.mp h
  have hstart : line.2 = cursor := by
    rw [Pattern.lineStart] at hline
    split at hline
    · rw [List.mem_singleton.mp hline]
    · cases hline
  obtain ⟨hindentRest, hindentSpace⟩ := of_mem_many hindent
  obtain ⟨hblanksRest, hblanksSpace, -⟩ := of_mem_many1 hblanks
  obtain ⟨hblanksRest', hblanksSpace'⟩ := of_mem_many hblanks'
  have hkeywordRest : visibility.2.rest = "type".toList ++ keyword.2.rest := of_mem_chars hkeyword
  have hequalsRest : blanks'.2.rest = "=".toList ++ equals.2.rest := of_mem_chars hequals
  obtain ⟨vis, hvis, hvisRest⟩ : ∃ vis, (vis = [] ∨ ∃ more, vis = "pub".toList ++ more ∧
      ∀ c ∈ more, chars.space c = true) ∧ indent.2.rest = vis ++ visibility.2.rest := by
    rcases mem_orElse.mp hvisibility with hvisibility | hvisibility
    · obtain ⟨pub, hpub, hvisibility⟩ := mem_bind.mp hvisibility
      obtain ⟨more, hmore, hvisibility⟩ := mem_bind.mp hvisibility
      have hdone : visibility = ((), more.2) := List.mem_singleton.mp hvisibility
      obtain ⟨hmoreRest, hmoreSpace, -⟩ := of_mem_many1 hmore
      have hpubRest : indent.2.rest = "pub".toList ++ pub.2.rest := of_mem_chars hpub
      exact ⟨"pub".toList ++ more.1, .inr ⟨more.1, rfl, hmoreSpace⟩,
        by rw [hpubRest, hmoreRest, hdone, List.append_assoc]⟩
    · have hdone : visibility = ((), indent.2) := List.mem_singleton.mp hvisibility
      exact ⟨[], .inl rfl, by rw [hdone]; rfl⟩
  refine ⟨indent.1, vis, blanks.1, blanks.2, found, blanks'.1, hfound, by rw [hway], ⟨hvis, hblanksSpace⟩, ?_, ?_,
    List.forall_mem_append.mpr ⟨hindentSpace, hblanksSpace'⟩⟩
  · rw [← hblanksRest, ← hkeywordRest, ← hvisRest, ← hindentRest, hstart]
  · rw [hblanksRest', hequalsRest, hway]
    rfl

/-- The alias of a name in a text. -/
structure IsAliasOf (chars : CharClass) (code aliasName aliasDefinition : String) : Prop where
  name : IsAliasName aliasName.toList
  definition : aliasDefinition = extractTypeAliasDefinitionByName chars code aliasName
  ne_empty : aliasDefinition ≠ ""

/-- **Every alias is one of the text.** -/
theorem get?_extractRustTypeAliases {code aliasName aliasDefinition : String}
    (h : (extractRustTypeAliases chars code).get? aliasName = some aliasDefinition) :
    IsAliasOf chars code aliasName aliasDefinition := by
  have hfold : ∀ (names : List (List Char)) (aliases : Dict String String), (∀ name ∈ names, IsAliasName name) →
      (∀ k v, aliases.get? k = some v → IsAliasOf chars code k v) →
      ∀ k v, (names.foldl (fun aliases name =>
        let aliasName := String.ofList name
        let aliasDefinition := extractTypeAliasDefinitionByName chars code aliasName
        if aliasDefinition = "" then aliases else aliases.insert aliasName aliasDefinition) aliases).get? k = some v →
        IsAliasOf chars code k v := by
    intro names
    induction names with
    | nil => exact fun _ _ haliases => haliases
    | cons name names ih =>
      intro aliases hnames haliases
      refine ih _ (fun n hn => hnames n (List.mem_cons_of_mem name hn)) fun k v hget => ?_
      dsimp only at hget
      split at hget
      · exact haliases k v hget
      · rename_i hne
        rw [Dict.get?_insert] at hget
        split at hget
        · rename_i hk
          obtain rfl := Option.some.inj hget
          subst hk
          exact ⟨by rw [String.toList_ofList]; exact hnames name List.mem_cons_self, rfl, hne⟩
        · exact haliases k v hget
  refine hfold _ .empty (fun name hname => ?_) (fun k v hget => ?_) aliasName aliasDefinition h
  · obtain ⟨piece, hpiece⟩ := mem_findAll.mp hname
    obtain ⟨front, rest, after, -, hmatch, -⟩ := match_of_mem_splitMatches hpiece
    obtain ⟨way, hway, heq⟩ := Option.map_eq_some_iff.mp hmatch
    obtain ⟨-, -, -, place, found, -, hfound, hword, -⟩ := of_mem_aliasHead (List.mem_of_head? hway)
    obtain rfl : way.1 = name := (Prod.mk.inj heq).1
    rw [hword]
    exact (of_mem_aliasIdentifier hfound).1
  · cases hget

/-- The name at the beginning of the definition of an alias. -/
def nameOfDefinition (chars : CharClass) (text : List Char) : List Char :=
  let text := if "pub".toList <+: text then (text.drop 3).dropWhile chars.space else text
  ((text.drop 4).dropWhile chars.space).takeWhile isNameChar

/-- Dropping stops at a character that does not belong. -/
theorem dropWhile_stop {p : Char → Bool} {c : Char} (hc : p c = false) (back : List Char) : ∀ front : List Char,
    ∃ front', (front ++ c :: back).dropWhile p = front' ++ c :: back
  | [] => ⟨[], List.dropWhile_cons_of_neg (by rw [hc]; exact Bool.false_ne_true)⟩
  | d :: front => by
    obtain ⟨front', hfront'⟩ := dropWhile_stop hc back front
    rw [List.cons_append, List.dropWhile_cons]
    split
    · exact ⟨front', hfront'⟩
    · exact ⟨d :: front, rfl⟩

/-- Blanks in front are dropped up to what follows. -/
theorem dropWhile_spaces {blanks rest : List Char} (hblanks : ∀ c ∈ blanks, chars.space c = true)
    (hrest : rest.head?.any chars.space = false) : (blanks ++ rest).dropWhile chars.space = rest := by
  rw [List.dropWhile_append_of_pos hblanks]
  cases rest with
  | nil => rfl
  | cons c rest =>
    rw [List.head?_cons, Option.any_some] at hrest
    exact List.dropWhile_cons_of_neg (by rw [hrest]; exact Bool.false_ne_true)

/-- From the text of an alias its name can be read back. -/
theorem nameOfDefinition_eq {visibility blanks name rest : List Char} (hlead : AliasLead chars visibility blanks)
    (hname : IsAliasName name) (hrest : rest.head?.any isNameChar = false) :
    nameOfDefinition chars (visibility ++ ("type".toList ++ (blanks ++ (name ++ rest)))) = name := by
  have hkeyword : ∀ more, (("type".toList ++ more).head?.any chars.space) = false := by
    intro more
    show chars.space 't' = false
    rw [chars.space_ascii 't' (by decide)]
    decide
  have hnamed : ((("type".toList ++ (blanks ++ (name ++ rest))).drop 4).dropWhile chars.space).takeWhile isNameChar =
      name := by
    have hdrop : ("type".toList ++ (blanks ++ (name ++ rest))).drop 4 = blanks ++ (name ++ rest) := rfl
    obtain ⟨c, cs, rfl, hc, -⟩ := id hname
    have hhead : ((c :: cs ++ rest).head?.any chars.space) = false := space_of_isNameChar (isNameChar_of_start hc)
    rw [hdrop, dropWhile_spaces hlead.blanks hhead, List.takeWhile_append_of_pos hname.nameChars]
    cases rest with
    | nil => rw [List.takeWhile_nil, List.append_nil]
    | cons d rest =>
      rw [List.head?_cons, Option.any_some] at hrest
      rw [List.takeWhile_cons_of_neg (by rw [hrest]; exact Bool.false_ne_true), List.append_nil]
  unfold nameOfDefinition
  rcases hlead.visibility with rfl | ⟨more, rfl, hmore⟩
  · have hnot : ¬ "pub".toList <+: [] ++ ("type".toList ++ (blanks ++ (name ++ rest))) := by
      rintro ⟨back, hback⟩
      exact absurd (List.cons.inj hback).1 (by decide)
    rw [if_neg hnot]
    exact hnamed
  · rw [if_pos ⟨_, (List.append_assoc ..).symm⟩, List.append_assoc]
    show ((((more ++ ("type".toList ++ (blanks ++ (name ++ rest)))).dropWhile chars.space).drop 4).dropWhile
      chars.space).takeWhile isNameChar = name
    rw [dropWhile_spaces hmore (hkeyword _), hnamed]

/-- **A definition begins with the name of its alias.** -/
theorem IsAliasOf.nameOfDefinition {code aliasName aliasDefinition : String}
    (h : IsAliasOf chars code aliasName aliasDefinition) :
    nameOfDefinition chars aliasDefinition.toList = aliasName.toList := by
  obtain ⟨hname, hdefinition, hne⟩ := h
  rw [extractTypeAliasDefinitionByName, if_neg] at hdefinition
  swap
  · rintro rfl
    exact hname.ne_nil rfl
  split at hdefinition
  · exact absurd hdefinition hne
  rename_i start after hsearch
  obtain ⟨cursor, -, hway⟩ := List.mem_flatMap.mp (List.mem_of_head? hsearch)
  obtain ⟨first, hfirst, hway⟩ := mem_bind.mp hway
  obtain rfl : first = (cursor, cursor) := List.mem_singleton.mp hfirst
  obtain ⟨match', hmatch, hway⟩ := mem_bind.mp hway
  have hdone : (start, after) = (cursor, match'.2) := List.mem_singleton.mp hway
  obtain ⟨rfl, rfl⟩ := Prod.mk.inj hdone
  obtain ⟨indent, visibility, blanks, place, found, blanks', hfound, -, hlead, hrest, hfoundRest, hspaces⟩ :=
    of_mem_aliasHead hmatch
  have hfoundName : place.rest = aliasName.toList ++ found.2.rest := of_mem_chars hfound
  rw [hfoundName, hfoundRest] at hrest
  have hequals : chars.space '=' = false := by
    rw [chars.space_ascii '=' (by decide)]
    decide
  -- what is cut off lies behind the mark
  obtain ⟨tail, htail⟩ : ((match'.2.rest.dropWhile (· ≠ ';')).drop 1) <:+ match'.2.rest :=
    (List.drop_suffix _ _).trans (List.dropWhile_suffix _)
  set rest := (match'.2.rest.dropWhile (· ≠ ';')).drop 1 with hrestEq
  set body := visibility ++ ("type".toList ++ (blanks ++ (aliasName.toList ++ blanks'))) with hbody
  have hsource : start.rest = (indent ++ (body ++ '=' :: tail)) ++ rest := by
    rw [hrest, ← htail, hbody]
    simp only [List.append_assoc, List.cons_append]
  have htaken : start.rest.take (start.rest.length - rest.length) = indent ++ (body ++ '=' :: tail) := by
    rw [hsource, List.length_append, Nat.add_sub_cancel, List.take_left]
  have hbodyHead : (body ++ '=' :: tail).head?.any chars.space = false := by
    rcases hlead.visibility with rfl | ⟨more, rfl, -⟩
    · show chars.space 't' = false
      rw [chars.space_ascii 't' (by decide)]
      decide
    · show chars.space 'p' = false
      rw [chars.space_ascii 'p' (by decide)]
      decide
  have hindent : ∀ c ∈ indent, chars.space c = true := fun c hc => hspaces c (List.mem_append_left _ hc)
  obtain ⟨tail', htail'⟩ := dropWhile_stop hequals body.reverse tail.reverse
  have hstrip : aliasDefinition.toList = body ++ '=' :: tail'.reverse := by
    rw [hdefinition, strip, String.toList_ofList, String.toList_ofList, htaken, dropWhile_spaces hindent hbodyHead,
      List.reverse_append, List.reverse_cons, List.append_assoc, List.singleton_append, htail', List.reverse_append,
      List.reverse_cons, List.reverse_reverse, List.append_assoc, List.singleton_append]
  have hshape : body ++ '=' :: tail'.reverse =
      visibility ++ ("type".toList ++ (blanks ++ (aliasName.toList ++ (blanks' ++ '=' :: tail'.reverse)))) := by
    rw [hbody]
    simp only [List.append_assoc]
  rw [hstrip, hshape]
  refine nameOfDefinition_eq hlead hname ?_
  cases blanks' with
  | nil => rfl
  | cons c cs =>
    have hc := hspaces c (by simp)
    rw [List.cons_append, List.head?_cons, Option.any_some]
    by_contra hword
    rw [space_of_isNameChar (by simpa using hword)] at hc
    cases hc

/-- **An alias mentions another one**, or itself. -/
def MentionsAlias (chars : CharClass) (aliases : Dict String String) (user dependency : String) : Prop :=
  dependency ∈ aliases.keys ∧ ∃ aliasDefinition, aliases.get? user = some aliasDefinition ∧
    (wholeWord chars dependency).found aliasDefinition = true

/-- An alias leads to another one by mentions. -/
def LeadsToAlias (chars : CharClass) (aliases : Dict String String) : String → String → Prop :=
  Relation.ReflTransGen (MentionsAlias chars aliases)

/-- An alias is mentioned in a definition, or by one that the definition leads to. -/
def IsReferenced (chars : CharClass) (aliases : Dict String String) (rootDefinition aliasName : String) : Prop :=
  ∃ mentioned ∈ aliases.keys, (wholeWord chars mentioned).found rootDefinition = true ∧
    LeadsToAlias chars aliases mentioned aliasName

/-- The aliases that one mentions, in the order of the dictionary. -/
def mentionedBy (chars : CharClass) (aliases : Dict String String) (aliasName : String) : Option (List String) :=
  (aliases.get? aliasName).map fun aliasDefinition =>
    aliases.keys.filter fun dependency => (wholeWord chars dependency).found aliasDefinition

section

variable {aliases : Dict String String}

/-- The neighbours of an alias are the aliases that its definition mentions. -/
theorem mem_neighbours_mentionedBy {user dependency : String} :
    dependency ∈ neighbours (mentionedBy chars aliases) user ↔ MentionsAlias chars aliases user dependency := by
  unfold neighbours mentionedBy MentionsAlias
  cases aliases.get? user with
  | none => simp
  | some aliasDefinition => simp

/-- Reaching along them is leading to, by mentions. -/
theorem reach_mentionedBy {user dependency : String} :
    Reach (neighbours (mentionedBy chars aliases)) user dependency ↔ LeadsToAlias chars aliases user dependency := by
  have heq : (fun u v => v ∈ neighbours (mentionedBy chars aliases) u) = MentionsAlias chars aliases :=
    funext fun u => funext fun v => propext mem_neighbours_mentionedBy
  unfold Reach LeadsToAlias
  rw [heq]

/-- An alias of the dictionary has its definition in it. -/
theorem exists_get? {aliasName : String} (h : aliasName ∈ aliases.keys) :
    ∃ aliasDefinition, aliases.get? aliasName = some aliasDefinition := by
  rw [← Option.isSome_iff_exists, Option.isSome_iff_ne_none]
  exact fun hnone => (Dict.get?_eq_none_iff aliases aliasName).mp hnone h

/-- Mentions stay among the aliases. -/
theorem mentionedBy_some {aliasName : String} (h : aliasName ∈ aliases.keys.toFinset) :
    ∃ mentioned, mentionedBy chars aliases aliasName = some mentioned ∧
      ∀ dependency ∈ mentioned, dependency ∈ aliases.keys.toFinset := by
  obtain ⟨aliasDefinition, hget⟩ := exists_get? (List.mem_toFinset.mp h)
  refine ⟨_, by rw [mentionedBy, hget, Option.map_some], fun dependency hdependency => ?_⟩
  exact List.mem_toFinset.mpr (List.mem_filter.mp hdependency).1

/-- The definition of an alias. -/
def definitionOf (aliases : Dict String String) (aliasName : String) : String := (aliases.get? aliasName).getD ""

/-! ## The walk -/

/-- **The walk is a post-order** whose nodes are written down by their definitions. -/
structure AliasWalk.Stands (aliases : Dict String String) (s : AliasWalk) (t : PostOrder String) : Prop where
  seen : ∀ x, x ∈ t.seen ↔ x ∈ s.visited ∨ x ∈ s.visiting
  definitions : s.orderedDefinitions = t.order.map (definitionOf aliases)

/-- A step of the walk stands for one of the post-order, and leaves no call open. -/
def StepStands (aliases : Dict String String) (f : AliasWalk → Option AliasWalk)
    (g : PostOrder String → Option (PostOrder String)) : Prop :=
  ∀ s t t', AliasWalk.Stands aliases s t → g t = some t' →
    ∃ s', f s = some s' ∧ AliasWalk.Stands aliases s' t' ∧ s'.visiting = s.visiting

/-- A loop over all names with a condition is one over the names that satisfy it. -/
theorem foldlM_stands {p : String → Bool} {f : AliasWalk → String → Option AliasWalk}
    {g : PostOrder String → String → Option (PostOrder String)} : ∀ {names : List String},
    (∀ name ∈ names, StepStands aliases (f · name) (g · name)) →
      StepStands aliases (fun s => names.foldlM (fun s name => if p name = true then f s name else some s) s)
        fun t => (names.filter p).foldlM g t
  | [], _ => by
    intro s t t' hstands h
    obtain rfl := Option.some.inj h
    exact ⟨s, rfl, hstands, rfl⟩
  | name :: names, hstep => by
    intro s t t' hstands h
    have ih := foldlM_stands (p := p) fun n hn => hstep n (List.mem_cons_of_mem name hn)
    dsimp only at h ⊢
    rw [List.foldlM_cons]
    by_cases hp : p name = true
    · rw [List.filter_cons_of_pos hp, List.foldlM_cons] at h
      obtain ⟨t₁, ht₁, h⟩ := Option.bind_eq_some_iff.mp h
      obtain ⟨s₁, hs₁, hstands₁, hopen₁⟩ := hstep name List.mem_cons_self s t t₁ hstands ht₁
      have hs₁ : f s name = some s₁ := hs₁
      obtain ⟨s', hs', hstands', hopen⟩ := ih s₁ t₁ t' hstands₁ h
      refine ⟨s', ?_, hstands', hopen.trans hopen₁⟩
      rw [if_pos hp, hs₁]
      exact hs'
    · rw [List.filter_cons_of_neg hp] at h
      rw [if_neg hp]
      exact ih s t t' hstands h

/-- **A visit of the walk is one of the post-order.** -/
theorem visitAlias_stands {fuel : Nat} : ∀ {aliasName : String}, aliasName ∈ aliases.keys →
    StepStands aliases (visitAlias chars aliases fuel aliasName) (visit (mentionedBy chars aliases) fuel aliasName) := by
  induction fuel with
  | zero => intro _ _ _ _ _ _ h; cases h
  | succ fuel ih =>
    intro aliasName hname s t t' hstands h
    rw [visit] at h
    rw [visitAlias]
    by_cases hseen : aliasName ∈ t.seen
    · rw [if_pos hseen] at h
      obtain rfl := Option.some.inj h
      exact ⟨s, if_pos ((hstands.seen aliasName).mp hseen), hstands, rfl⟩
    have hnot : ¬ (aliasName ∈ s.visited ∨ aliasName ∈ s.visiting) := fun h => hseen ((hstands.seen aliasName).mpr h)
    obtain ⟨aliasDefinition, hget⟩ := exists_get? hname
    rw [if_neg hseen, mentionedBy, hget, Option.map_some, Option.bind_some] at h
    obtain ⟨t₁, ht₁, rfl⟩ := Option.map_eq_some_iff.mp h
    have henter : AliasWalk.Stands aliases { s with visiting := insert aliasName s.visiting }
        ⟨t.order, insert aliasName t.seen⟩ := by
      refine ⟨fun x => ?_, hstands.definitions⟩
      rw [Finset.mem_insert, hstands.seen, Finset.mem_insert]
      tauto
    have hstep : ∀ dependency ∈ aliases.keys, StepStands aliases
        (fun s => if dependency = aliasName then some s else visitAlias chars aliases fuel dependency s)
        fun t => if dependency = aliasName then some t else visit (mentionedBy chars aliases) fuel dependency t := by
      intro dependency hdependency s t t' hstands h
      dsimp only at h ⊢
      split at h
      · rename_i hself
        obtain rfl := Option.some.inj h
        exact ⟨s, if_pos hself, hstands, rfl⟩
      · rename_i hother
        rw [if_neg hother]
        exact ih hdependency s t t' hstands h
    obtain ⟨s₁, hs₁, hstands₁, hopen⟩ := foldlM_stands hstep _ _ _ henter ht₁
    have hswap : (fun (s : AliasWalk) dependencyName => if dependencyName = aliasName then some s
          else if (wholeWord chars dependencyName).found aliasDefinition = true then
            visitAlias chars aliases fuel dependencyName s
          else some s) =
        fun s dependency => if (wholeWord chars dependency).found aliasDefinition = true then
          if dependency = aliasName then some s else visitAlias chars aliases fuel dependency s
        else some s := by
      funext s dependency
      split <;> split <;> rfl
    have hopen : s₁.visiting = insert aliasName s.visiting := hopen
    rw [if_neg hnot, hget]
    dsimp only at hs₁ ⊢
    rw [hswap, hs₁]
    refine ⟨_, rfl, ⟨fun x => ?_, ?_⟩, ?_⟩
    · show x ∈ t₁.seen ↔ x ∈ insert aliasName s₁.visited ∨ x ∈ s₁.visiting.erase aliasName
      have hself : aliasName ∈ s₁.visiting := hopen ▸ Finset.mem_insert_self _ _
      rw [hstands₁.seen, Finset.mem_insert, Finset.mem_erase]
      by_cases hx : x = aliasName
      · subst hx
        tauto
      · tauto
    · show s₁.orderedDefinitions ++ [aliasDefinition] = (t₁.order ++ [aliasName]).map (definitionOf aliases)
      rw [List.map_append, List.map_singleton, ← hstands₁.definitions, definitionOf, hget]
      rfl
    · show s₁.visiting.erase aliasName = s.visiting
      rw [hopen, Finset.erase_insert fun h => hnot (.inr h)]

/-- **What the walk comes to**: the definitions of the aliases that are referenced, each once, and of one that is
mentioned before that of its user unless it leads back to it. -/
structure AliasOrder (chars : CharClass) (aliases : Dict String String) (rootDefinition : String)
    (names : List String) : Prop where
  nodup : names.Nodup
  mem_iff : ∀ name, name ∈ names ↔ IsReferenced chars aliases rootDefinition name
  dependenciesFirst : ∀ before user after, names = before ++ user :: after → ∀ dependency,
    MentionsAlias chars aliases user dependency → dependency ∈ before ∨ LeadsToAlias chars aliases dependency user

/-- The first search ends, since it goes no deeper than there are aliases, and gives the order that
is read off its walk. -/
theorem aliasOrder_of_walk (chars : CharClass) (aliases : Dict String String) (rootDefinition : String) : ∃ names,
    (aliases.keys.foldlM (fun s aliasName =>
      if (wholeWord chars aliasName).found rootDefinition = true then
        visitAlias chars aliases (aliases.keys.toFinset.card + 1) aliasName s
      else some s) ⟨∅, ∅, []⟩).map AliasWalk.orderedDefinitions = some (names.map (definitionOf aliases)) ∧
    AliasOrder chars aliases rootDefinition names := by
  have hnodes : ∀ v ∈ aliases.keys.toFinset, ∃ ws, mentionedBy chars aliases v = some ws ∧
      ∀ w ∈ ws, w ∈ aliases.keys.toFinset := fun _ => mentionedBy_some
  have hroots : ∀ r ∈ aliases.keys.filter fun aliasName => (wholeWord chars aliasName).found rootDefinition,
      r ∈ aliases.keys.toFinset := fun r hr => List.mem_toFinset.mpr (List.mem_filter.mp hr).1
  obtain ⟨t, ht, hnodup, hmem, hfirst⟩ := visit_roots hnodes hroots
  have hempty : AliasWalk.Stands aliases ⟨∅, ∅, []⟩ ⟨[], ∅⟩ := ⟨by simp, rfl⟩
  obtain ⟨s, hs, hstands, -⟩ := foldlM_stands (fun aliasName hname => visitAlias_stands hname) _ _ _ hempty ht
  refine ⟨t.order, ?_, hnodup, fun name => ?_, fun before user after hsplit dependency hmentions => ?_⟩
  · dsimp only at hs
    rw [hs, Option.map_some, hstands.definitions]
  · rw [hmem, IsReferenced]
    constructor
    · rintro ⟨r, hr, hreach⟩
      obtain ⟨hkey, hfound⟩ := List.mem_filter.mp hr
      exact ⟨r, hkey, hfound, reach_mentionedBy.mp hreach⟩
    · rintro ⟨r, hkey, hfound, hleads⟩
      exact ⟨r, List.mem_filter.mpr ⟨hkey, hfound⟩, reach_mentionedBy.mpr hleads⟩
  · exact (hfirst before user after hsplit dependency (mem_neighbours_mentionedBy.mpr hmentions)).imp_right
      reach_mentionedBy.mp

/-! ## The queue -/

/-- The aliases that one mentions, in the order of its set. -/
def queuedBy (chars : CharClass) (order : SetOrder String) (aliases : Dict String String) (aliasName : String) :
    List String :=
  mentionedAliases chars order aliases (definitionOf aliases aliasName)

variable {order : SetOrder String}

/-- All names are names of aliases, and no definition is empty. -/
def AreAliases (aliases : Dict String String) : Prop :=
  ∀ aliasName aliasDefinition, aliases.get? aliasName = some aliasDefinition →
    IsAliasName aliasName.toList ∧ aliasDefinition ≠ ""

/-- The aliases that a text mentions, as the second search finds them. -/
theorem mem_mentionedAliases (haliases : AreAliases aliases) {aliasName snippet : String} :
    aliasName ∈ mentionedAliases chars order aliases snippet ↔
      aliasName ∈ aliases.keys ∧ (wholeWord chars aliasName).found snippet = true := by
  rw [mentionedAliases, List.mem_filter, order.mem_toList, decide_eq_true_eq, and_comm]
  refine and_congr_right fun hkey => ?_
  obtain ⟨aliasDefinition, hget⟩ := exists_get? hkey
  exact (found_iff_mem (haliases aliasName aliasDefinition hget).1 snippet).symm

/-- What an alias puts into the queue are the aliases that its definition mentions. -/
theorem mem_queuedBy (haliases : AreAliases aliases) {user dependency : String} (huser : user ∈ aliases.keys) :
    dependency ∈ queuedBy chars order aliases user ↔ MentionsAlias chars aliases user dependency := by
  obtain ⟨aliasDefinition, hget⟩ := exists_get? huser
  rw [queuedBy, mem_mentionedAliases haliases, definitionOf, hget, MentionsAlias, hget]
  simp

/-- What the queue reaches is what mentions lead to. -/
theorem reach_queuedBy (haliases : AreAliases aliases) {user dependency : String} (huser : user ∈ aliases.keys) :
    Reach (queuedBy chars order aliases) user dependency ↔ LeadsToAlias chars aliases user dependency := by
  constructor
  · intro h
    have hboth : dependency ∈ aliases.keys ∧ LeadsToAlias chars aliases user dependency := by
      induction h with
      | refl => exact ⟨huser, .refl⟩
      | tail _ hedge ih =>
        have hmentions := (mem_queuedBy haliases ih.1).mp hedge
        exact ⟨hmentions.1, ih.2.tail hmentions⟩
    exact hboth.2
  · intro h
    have hboth : dependency ∈ aliases.keys ∧ Reach (queuedBy chars order aliases) user dependency := by
      induction h with
      | refl => exact ⟨huser, .refl user⟩
      | tail _ hmentions ih => exact ⟨hmentions.1, ih.2.trans (.edge ((mem_queuedBy haliases ih.1).mpr hmentions))⟩
    exact hboth.2

/-- **The loop is a worklist** whose visited nodes are included by their definitions. -/
structure AliasQueue.Stands (aliases : Dict String String) (s : AliasQueue) (w : Worklist String) : Prop where
  queue : s.queue = w.queue
  seen : s.seenAliases = w.visited
  included : ∃ names : List String, names.Nodup ∧ (∀ x, x ∈ names ↔ x ∈ w.visited) ∧
    s.includedAliases = names.map (definitionOf aliases)
  aliases : ∀ x ∈ w.queue, x ∈ aliases.keys

/-- Every pass of the source's loop stands for a pass of the worklist, so the general result on
worklists applies to it. -/
theorem AliasQueue.pass_stands (haliases : AreAliases aliases) {s : AliasQueue} {w w' : Worklist String}
    (hstands : AliasQueue.Stands aliases s w) (h : Worklist.pass (queuedBy chars order aliases) w = some w') :
    ∃ s', AliasQueue.pass chars order aliases s = some s' ∧ AliasQueue.Stands aliases s' w' := by
  obtain ⟨hqueue, hseen, ⟨names, hnodup, hmem, hincluded⟩, hkeys⟩ := hstands
  unfold Worklist.pass at h
  unfold AliasQueue.pass
  rw [hqueue, hseen]
  cases hw : w.queue with
  | nil => rw [hw] at h; cases h
  | cons current rest =>
    rw [hw] at h hkeys
    dsimp only at h ⊢
    have hrest : ∀ x ∈ rest, x ∈ aliases.keys := fun x hx => hkeys x (List.mem_cons_of_mem current hx)
    by_cases hvisited : current ∈ w.visited
    · rw [if_pos hvisited] at h ⊢
      obtain rfl := Option.some.inj h
      exact ⟨_, rfl, rfl, rfl, ⟨names, hnodup, hmem, hincluded⟩, hrest⟩
    · obtain ⟨aliasDefinition, hget⟩ := exists_get? (hkeys current List.mem_cons_self)
      have hne := (haliases current aliasDefinition hget).2
      rw [if_neg hvisited] at h ⊢
      obtain rfl := Option.some.inj h
      rw [hget, Option.getD_some, if_neg hne]
      refine ⟨_, rfl, ?_, rfl, ⟨names ++ [current], ?_, fun x => ?_, ?_⟩, fun x hx => ?_⟩
      · show rest ++ _ = rest ++ _
        rw [queuedBy, definitionOf, hget, Option.getD_some]
      · exact List.nodup_append.mpr ⟨hnodup, List.nodup_singleton _, fun x hx y hy heq =>
          hvisited ((hmem current).mp (List.mem_singleton.mp hy ▸ heq ▸ hx))⟩
      · rw [List.mem_append, hmem, List.mem_singleton, Finset.mem_insert, or_comm]
      · rw [List.map_append, hincluded, List.map_singleton, definitionOf, hget, Option.getD_some]
      · rcases List.mem_append.mp hx with hx | hx
        · exact hrest x hx
        · exact ((mem_mentionedAliases haliases).mp (List.mem_filter.mp hx).1).1

end

/-- What is extracted from a text are aliases under their own names. -/
theorem areAliases (chars : CharClass) (code : String) : AreAliases (extractRustTypeAliases chars code) := fun
    _ _ hget =>
  ⟨(get?_extractRustTypeAliases hget).name, (get?_extractRustTypeAliases hget).ne_empty⟩

/-- **What the queue comes to**: the definitions of the aliases that are referenced, each once. -/
theorem includedTypeAliases_spec (chars : CharClass) (order : SetOrder String) (code structDefinition : String) :
    ∃ names : List String,
    includedTypeAliases chars order code structDefinition =
      some (names.map (definitionOf (extractRustTypeAliases chars code))) ∧ names.Nodup ∧
    ∀ name, name ∈ names ↔ IsReferenced chars (extractRustTypeAliases chars code) structDefinition name := by
  have haliases := areAliases chars code
  unfold includedTypeAliases
  dsimp only
  set aliases := extractRustTypeAliases chars code with haliasesEq
  have hroot : ∀ r, r ∈ mentionedAliases chars order aliases structDefinition ↔ r ∈ aliases.keys ∧
      (wholeWord chars r).found structDefinition = true := fun r => mem_mentionedAliases haliases
  obtain ⟨w, hw, hvisited⟩ := worklist_spec (queuedBy chars order aliases) aliases.keys.toFinset
    (fun v _ x hx => List.mem_toFinset.mpr ((mem_mentionedAliases haliases).mp hx).1)
    (mentionedAliases chars order aliases structDefinition) fun r hr => List.mem_toFinset.mpr ((hroot r).mp hr).1
  have hstart : AliasQueue.Stands aliases ⟨mentionedAliases chars order aliases structDefinition, ∅, []⟩
      ⟨mentionedAliases chars order aliases structDefinition, ∅⟩ :=
    ⟨rfl, rfl, ⟨[], List.nodup_nil, by simp, rfl⟩, fun x hx => ((hroot x).mp hx).1⟩
  have hcond : ∀ (s : AliasQueue) (w : Worklist String), AliasQueue.Stands aliases s w →
      (!s.queue.isEmpty) = !w.queue.isEmpty := fun s w h => by rw [h.queue]
  have hpass : ∀ (s : AliasQueue) (w w' : Worklist String), AliasQueue.Stands aliases s w →
      (!w.queue.isEmpty) = true → Worklist.pass (queuedBy chars order aliases) w = some w' →
      ∃ s', AliasQueue.pass chars order aliases s = some s' ∧ AliasQueue.Stands aliases s' w' :=
    fun s w w' h _ hw => AliasQueue.pass_stands haliases h hw
  obtain ⟨s, hs, -, -, ⟨names, hnodup, hmem, hincluded⟩, -⟩ :=
    whileLoop_simulates (AliasQueue.Stands aliases) hcond hpass _ _ _ _ hstart hw
  have hsum : ∑ v ∈ aliases.keys.toFinset, (queuedBy chars order aliases v).length =
      (aliases.keys.map fun aliasName => (mentionedAliases chars order aliases
        ((aliases.get? aliasName).getD "")).length).sum := by
    rw [List.sum_toFinset _ aliases.keys_nodup]
    rfl
  rw [hsum] at hs
  refine ⟨names, by rw [hs, Option.map_some, hincluded], hnodup, fun name => ?_⟩
  rw [hmem, hvisited, IsReferenced]
  constructor
  · rintro ⟨r, hr, hreach⟩
    obtain ⟨hkey, hfound⟩ := (hroot r).mp hr
    exact ⟨r, hkey, hfound, (reach_queuedBy haliases hkey).mp hreach⟩
  · rintro ⟨r, hkey, hfound, hleads⟩
    exact ⟨r, (hroot r).mpr ⟨hkey, hfound⟩, (reach_queuedBy haliases hkey).mpr hleads⟩

/-! ## Both searches -/

/-- Only aliases of the dictionary are referenced. -/
theorem IsReferenced.mem_keys {aliases : Dict String String} {rootDefinition aliasName : String}
    (h : IsReferenced chars aliases rootDefinition aliasName) : aliasName ∈ aliases.keys := by
  obtain ⟨mentioned, hkey, -, hleads⟩ := h
  rcases Relation.ReflTransGen.cases_tail hleads with heq | ⟨user, -, hmentions⟩
  · exact heq ▸ hkey
  · exact hmentions.1

/-- An empty definition mentions nothing. -/
theorem not_found_empty {name : String} (hname : IsAliasName name.toList) :
    (wholeWord chars name).found "" = false := by
  rw [Bool.eq_false_iff, ne_eq, found_iff_mem hname, extractIdentifiers]
  intro hmem
  cases List.mem_toFinset.mp hmem

/-- **`extractReferencedRustTypeAliasDefinitions` returns, with the definitions of the aliases that the root definition
leads to**: each once, that of an alias before those of its users unless it leads back to them.
`appendDependentTypeAliases` puts the same definitions behind the root definition. -/
theorem extractReferencedRustTypeAliasDefinitions_spec (chars : CharClass) (order : SetOrder String)
    (code rootDefinition : String) : ∃ names included : List String,
      extractReferencedRustTypeAliasDefinitions chars code rootDefinition =
        some (names.map (definitionOf (extractRustTypeAliases chars code))) ∧
      (names.map (definitionOf (extractRustTypeAliases chars code))).Nodup ∧
      AliasOrder chars (extractRustTypeAliases chars code) rootDefinition names ∧
      appendDependentTypeAliases chars order code rootDefinition = some (if included = [] then rootDefinition
        else rootDefinition ++ "\n\n" ++ "\n\n".intercalate included) ∧
      included.Perm (names.map (definitionOf (extractRustTypeAliases chars code))) := by
  set aliases := extractRustTypeAliases chars code with haliasesEq
  have haliases : AreAliases aliases := areAliases chars code
  have hinjective : ∀ names : List String, names.Nodup →
      (∀ name, name ∈ names → IsReferenced chars aliases rootDefinition name) →
      (names.map (definitionOf aliases)).Nodup := by
    intro names hnodup hmem
    refine List.Nodup.map_on (fun x hx y hy heq => ?_) hnodup
    obtain ⟨xDefinition, hx⟩ := exists_get? (hmem x hx).mem_keys
    obtain ⟨yDefinition, hy⟩ := exists_get? (hmem y hy).mem_keys
    rw [definitionOf, definitionOf, hx, hy, Option.getD_some, Option.getD_some] at heq
    have hxName := (get?_extractRustTypeAliases hx).nameOfDefinition
    rw [heq, (get?_extractRustTypeAliases hy).nameOfDefinition] at hxName
    exact (String.toList_inj.mp hxName).symm
  by_cases hnone : aliases.keys = [] ∨ rootDefinition = ""
  · refine ⟨[], [], if_pos hnone, List.nodup_nil, ⟨List.nodup_nil, fun name => ?_, by simp⟩, ?_, List.Perm.refl _⟩
    · refine iff_of_false List.not_mem_nil ?_
      rintro ⟨mentioned, hkey, hfound, -⟩
      rcases hnone with hkeys | rfl
      · rw [hkeys] at hkey
        cases hkey
      · obtain ⟨aliasDefinition, hget⟩ := exists_get? hkey
        rw [not_found_empty (haliases mentioned aliasDefinition hget).1] at hfound
        cases hfound
    · rw [appendDependentTypeAliases, if_pos hnone.symm, if_pos rfl]
  · obtain ⟨names, hwalk, horder⟩ := aliasOrder_of_walk chars aliases rootDefinition
    obtain ⟨included, hqueue, hnodup, hmem⟩ := includedTypeAliases_spec chars order code rootDefinition
    refine ⟨names, included.map (definitionOf aliases), ?_, hinjective names horder.nodup fun name hname =>
      (horder.mem_iff name).mp hname, horder, ?_, ?_⟩
    · rw [extractReferencedRustTypeAliasDefinitions, if_neg hnone]
      exact hwalk
    · rw [appendDependentTypeAliases, if_neg (fun h => hnone h.symm), hqueue, Option.map_some]
    · apply List.Perm.map
      rw [List.perm_ext_iff_of_nodup hnodup horder.nodup]
      exact fun name => (hmem name).trans (horder.mem_iff name).symm

end Assure
