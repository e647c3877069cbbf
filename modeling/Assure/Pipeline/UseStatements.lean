import Mathlib
import Assure.Library.Collections
import Assure.Library.Blanks
import Assure.Library.Regex

/-!
# One import for each name

Before code is compiled its `use` statements are put together: one statement for each path, and each name imported from
one path only. Of several paths for a name the preferred one is taken, and among these the first. A path that is
imported whole swallows the statements with it.

A name is never imported twice, and it is imported from a path than which none is preferred, or a path that lists it is
imported whole (`dedupUseStatements_spec`). Doing it again changes nothing (`dedupUses_dedupUses`).

Both results are for every list of statements, with the items of a group in any order in which a set
may give them. Whether a path exists, and whether the preferred one is what the code means, is not
known to the function and not part of the results.
-/

namespace Assure

open Assure.Library

/-! ## The code -/

/-- A statement as it is parsed: what stands before the last `::`, and the items behind it in the order in which the set
of them is gone through. -/
@[ext]
structure UseStatement where
  path : List Char
  items : List (List Char)

/-- The items with their path. -/
def UseStatement.offers (statement : UseStatement) : List (List Char × List Char) :=
  statement.items.map fun item => (statement.path, item)

section Code

variable (chars : CharClass)

/-- What stands behind the first `\s+as\s+`. -/
def behindAs : List Char → Option (List Char)
  | [] => none
  | c :: text =>
    match chars.space c, text.dropWhile chars.space with
    | true, 'a' :: 's' :: d :: rest => if chars.space d then some (rest.dropWhile chars.space) else behindAs text
    | _, _ => behindAs text

/-- What stands before and behind the last place where a text is found. -/
def splitLast (separator text : List Char) : Option (List Char × List Char) :=
  (text.tails.reverse.find? fun rest => separator.isPrefixOf rest).map fun rest =>
    (text.take (text.length - rest.length), rest.drop separator.length)

/-- `{item.strip() for item in rawItems.split(",") if len(item.strip()) > 0}` -/
def useItems (order : SetOrder (List Char)) (rawItems : List Char) : List (List Char) :=
  order.toList (((rawItems.splitOn ',').map (stripBlanks chars)).filter (!·.isEmpty)).toFinset

/-- What stands between `use` and the last semicolon. -/
def parseUseBody (order : SetOrder (List Char)) (body : List Char) : Option UseStatement :=
  match (splitLast "::\x7b".toList body).filter fun parts => parts.2.getLast? == some '\x7d' with
  | some (path, rawItems) => some ⟨stripBlanks chars path, useItems chars order rawItems.dropLast⟩
  | none =>
    (splitLast "::".toList body).bind fun parts =>
      let path := stripBlanks chars parts.1
      let item := stripBlanks chars parts.2
      if path.isEmpty || item.isEmpty then none else some ⟨path, [item]⟩

/-- **`parseRustUseStatement`**: `.` matches no line break. -/
def parseRustUseStatement (order : SetOrder (List Char)) (useStmt : List Char) : Option UseStatement :=
  match stripBlanks chars useStmt with
  | 'u' :: 's' :: 'e' :: c :: rest =>
    let body := stripBlanks chars rest.dropLast
    if chars.space c && rest.getLast? == some ';' && !body.isEmpty && !body.contains '\n' then
      parseUseBody chars order body
    else none
  | _ => none

/-- **`extractRustImportedBinding`**: the name, if it is one. -/
def extractRustImportedBinding (item : List Char) : Option (List Char) :=
  let normalizedItem := stripBlanks chars item
  if normalizedItem.isEmpty || normalizedItem == ['*'] then none
  else
    let name := stripBlanks chars ((behindAs chars normalizedItem).getD
      (((splitLast "::".toList normalizedItem).map Prod.snd).getD normalizedItem))
    if name.isEmpty then none else some name

/-- **`rustImportPreference`** -/
def rustImportPreference (path bindingName : List Char) : Nat :=
  if "c_".toList.isPrefixOf bindingName || bindingName == "c_void".toList then
    if path == "std::ffi".toList then 0 else if path == "std::os::raw".toList then 1 else 2
  else 2

/-- An entry of `selectedBindings`. -/
structure UseCandidate where
  preference : Nat
  itemOrder : Nat
  path : List Char
  item : List Char

/-- `candidate < existing`; no two have the same number. -/
def UseCandidate.before (candidate existing : UseCandidate) : Prop :=
  candidate.preference < existing.preference ∨
    candidate.preference = existing.preference ∧ candidate.itemOrder < existing.itemOrder

instance (candidate existing : UseCandidate) : Decidable (candidate.before existing) :=
  inferInstanceAs (Decidable (_ ∨ _))

/-- **The variables of `dedupUseStatements`**; `prefixOrder` is the order of the keys of `groupedImports`. -/
structure UseSelection where
  selectedBindings : Dict (List Char) UseCandidate
  groupedImports : Dict (List Char) (Finset (List Char))
  wildcardPrefixes : Finset (List Char)
  itemOrder : Nat

namespace UseSelection

/-- `groupedImports[prefix]` -/
def group (s : UseSelection) (path : List Char) : Finset (List Char) := (s.groupedImports.get? path).getD ∅

/-- `groupedImports[prefix] = items` -/
def setGroup (s : UseSelection) (path : List Char) (items : Finset (List Char)) : UseSelection :=
  { s with groupedImports := s.groupedImports.insert path items }

/-- The group of a path, empty if it is new. -/
def openGroup (s : UseSelection) (path : List Char) : UseSelection :=
  { s with groupedImports := s.groupedImports.setdefault path ∅ }

/-- The group of a path is all that is there. -/
def takeWhole (s : UseSelection) (path : List Char) : UseSelection :=
  { s.setGroup path {['*']} with wildcardPrefixes := insert path s.wildcardPrefixes }

/-- The name is bound by the candidate from now on. -/
def select (s : UseSelection) (bindingName : List Char) (candidate : UseCandidate) : UseSelection :=
  { s with selectedBindings := s.selectedBindings.insert bindingName candidate }

/-- The first loop over the items of a statement. -/
def selectItem (path : List Char) (s : UseSelection) (item : List Char) : UseSelection :=
  match extractRustImportedBinding chars item with
  | none => s.setGroup path (insert item (s.group path))
  | some bindingName =>
    let candidate := ⟨rustImportPreference path bindingName, s.itemOrder, path, item⟩
    let s := { s with itemOrder := s.itemOrder + 1 }
    match s.selectedBindings.get? bindingName with
    | none => s.select bindingName candidate
    | some existing =>
      if candidate.before existing then
        let s := (s.setGroup existing.path ((s.group existing.path).erase existing.item)).select bindingName candidate
        s.setGroup path (insert item (s.group path))
      else s

/-- The second loop over the items of a statement. -/
def keepItem (path : List Char) (s : UseSelection) (item : List Char) : UseSelection :=
  match extractRustImportedBinding chars item with
  | none => s.setGroup path (insert item (s.group path))
  | some bindingName =>
    let selected := (s.selectedBindings.get? bindingName).map fun selected => (selected.path, selected.item)
    if selected = some (path, item) then
      s.setGroup path (insert item (s.group path))
    else s

/-- **One statement in `dedupUseStatements`.** -/
def useStatement (s : UseSelection) (statement : UseStatement) : UseSelection :=
  let s := s.openGroup statement.path
  if statement.items.contains ['*'] then s.takeWhole statement.path
  else if statement.path ∈ s.wildcardPrefixes then s
  else statement.items.foldl (keepItem chars statement.path) (statement.items.foldl (selectItem chars statement.path) s)

end UseSelection

/-- Nothing is selected. -/
def noUses : UseSelection := ⟨Dict.empty, Dict.empty, ∅, 0⟩

/-- The variables behind the loop over the statements. -/
def selectionOf (statements : List UseStatement) : UseSelection :=
  statements.foldl (UseSelection.useStatement chars) noUses

/-- The items of a group as they are written. -/
def sortedItems (items : Finset (List Char)) : List (List Char) :=
  if ['*'] ∈ items then [['*']] else (SetOrder.ascending (List Char)).toList items

/-- **What `dedupUseStatements` makes of what it can parse**: one statement for each path, with its items sorted. -/
def dedupUses (statements : List UseStatement) : List UseStatement :=
  let s := selectionOf chars statements
  s.groupedImports.keys.map fun path => ⟨path, sortedItems (s.group path)⟩

/-- The text of a statement. -/
def useText (statement : UseStatement) : List Char :=
  match statement.items with
  | [item] => "use ".toList ++ statement.path ++ "::".toList ++ item ++ [';']
  | items => "use ".toList ++ statement.path ++ "::\x7b".toList ++ ", ".toList.intercalate items ++ "\x7d;".toList

/-- `orderedUses` -/
def orderedUses (uses : List (List Char)) : List (List Char) := (uses.map (stripBlanks chars)).eraseDups

/-- **`dedupUseStatements`** -/
def dedupUseStatements (order : SetOrder (List Char)) (uses : List (List Char)) : List (List Char) :=
  (orderedUses chars uses).filter (fun useStmt => (parseRustUseStatement chars order useStmt).isNone) ++
    (dedupUses chars ((orderedUses chars uses).filterMap (parseRustUseStatement chars order))).map useText

end Code

/-! ## What the loop keeps -/

section Invariant

variable {chars : CharClass}

/-- The name `*` is none. -/
theorem extractRustImportedBinding_star : extractRustImportedBinding chars ['*'] = none := by
  have hstar : chars.space '*' = false := chars.space_ascii '*' (by decide)
  have hstrip : stripBlanks chars ['*'] = ['*'] := by simp [stripBlanks, hstar]
  rw [extractRustImportedBinding, hstrip]
  rfl

namespace UseSelection

/-- Setting the items of a path leaves those of the others. -/
@[simp] theorem group_setGroup (s : UseSelection) (path : List Char) (items : Finset (List Char)) (other : List Char) :
    (s.setGroup path items).group other = if other = path then items else s.group other := by
  rw [group, setGroup, Dict.get?_insert]
  split <;> rfl

/-- Taking a path whole leaves the star alone of its items. -/
@[simp] theorem group_takeWhole (s : UseSelection) (path other : List Char) :
    (s.takeWhole path).group other = if other = path then {['*']} else s.group other :=
  group_setGroup s path {['*']} other

/-- Opening a group for a path sets no item. -/
@[simp] theorem group_openGroup (s : UseSelection) (path other : List Char) :
    (s.openGroup path).group other = s.group other := by
  by_cases hmem : path ∈ s.groupedImports.keys
  · rw [group, openGroup, Dict.setdefault_of_mem hmem]
    rfl
  · rw [group, openGroup, Dict.setdefault, if_neg hmem, Dict.get?_insert]
    split
    · rename_i heq
      rw [heq, group, (Dict.get?_eq_none_iff _ _).mpr hmem]
      rfl
    · rfl

end UseSelection

variable (chars) in
/-- **What holds between two items**: `past` are the items so far with their paths, and `pending` the ones of the
statement that may be selected without being in their group yet. -/
structure Selects (past pending : List (List Char × List Char)) (s : UseSelection) : Prop where
  listed : ∀ path item, item ∈ s.group path → (path, item) ∈ past
  whole : ∀ path, ['*'] ∈ s.group path → s.group path = {['*']}
  wildcards : ∀ path, path ∈ s.wildcardPrefixes ↔ ['*'] ∈ s.group path
  nameless : ∀ path item, (path, item) ∈ past → extractRustImportedBinding chars item = none →
    item ∈ s.group path ∨ ['*'] ∈ s.group path ∨ (path, item) ∈ pending
  bound : ∀ path item name, item ∈ s.group path → extractRustImportedBinding chars item = some name →
    ∃ c, s.selectedBindings.get? name = some c ∧ c.path = path ∧ c.item = item
  selected : ∀ name c, s.selectedBindings.get? name = some c →
    extractRustImportedBinding chars c.item = some name ∧ c.preference = rustImportPreference c.path name ∧
      c.itemOrder < s.itemOrder ∧ (c.path, c.item) ∈ past ∧
      (c.item ∈ s.group c.path ∨ ['*'] ∈ s.group c.path ∨ (c.path, c.item) ∈ pending)
  preferred : ∀ path item name, (path, item) ∈ past → extractRustImportedBinding chars item = some name →
    ['*'] ∈ s.group path ∨
      ∃ c, s.selectedBindings.get? name = some c ∧ c.preference ≤ rustImportPreference path name

variable {past pending : List (List Char × List Char)} {s : UseSelection}

/-- Whether a selection is right for what was offered depends only on what was offered, not on its
order. -/
theorem Selects.congr {past' : List (List Char × List Char)} (h : Selects chars past pending s)
    (hpast : ∀ offer, offer ∈ past' ↔ offer ∈ past) : Selects chars past' pending s where
  listed path item hitem := (hpast _).mpr (h.listed path item hitem)
  whole := h.whole
  wildcards := h.wildcards
  nameless path item hitem := h.nameless path item ((hpast _).mp hitem)
  bound := h.bound
  selected name c hc := by
    obtain ⟨hname, hrank, horder, hmem, hheld⟩ := h.selected name c hc
    exact ⟨hname, hrank, horder, (hpast _).mpr hmem, hheld⟩
  preferred path item name hitem := h.preferred path item name ((hpast _).mp hitem)

/-- An item that is none of `*` and is bound by its own candidate, or binds nothing, can be put into its group. -/
theorem Selects.insert {path item : List Char} (h : Selects chars past ((path, item) :: pending) s)
    (hpast : (path, item) ∈ past) (hopen : path ∉ s.wildcardPrefixes) (hstar : item ≠ ['*'])
    (hbound : ∀ name, extractRustImportedBinding chars item = some name →
      ∃ c, s.selectedBindings.get? name = some c ∧ c.path = path ∧ c.item = item) :
    Selects chars past pending (s.setGroup path (Insert.insert item (s.group path))) := by
  have hgroup : ∀ other i, i ∈ (s.setGroup path (Insert.insert item (s.group path))).group other ↔
      i ∈ s.group other ∨ other = path ∧ i = item := by
    intro other i
    rw [UseSelection.group_setGroup]
    split
    · rename_i heq
      rw [heq, Finset.mem_insert, or_comm, and_iff_right rfl]
    · rename_i hne
      rw [or_iff_left fun hboth => hne hboth.1]
  have hwhole : ∀ other, ['*'] ∈ (s.setGroup path (Insert.insert item (s.group path))).group other ↔
      ['*'] ∈ s.group other := fun other => by
    rw [hgroup, or_iff_left fun hboth => hstar hboth.2.symm]
  refine ⟨?_, ?_, ?_, ?_, ?_, ?_, ?_⟩
  · intro other i hi
    rcases (hgroup other i).mp hi with hi | ⟨rfl, rfl⟩
    · exact h.listed other i hi
    · exact hpast
  · intro other hother
    have hother := (hwhole other).mp hother
    have hne : other ≠ path := fun heq => hopen (heq ▸ (h.wildcards other).mpr hother)
    rw [UseSelection.group_setGroup, if_neg hne, h.whole other hother]
  · intro other
    rw [hwhole]
    exact h.wildcards other
  · intro other i hi hname
    rw [hwhole, hgroup]
    rcases h.nameless other i hi hname with hheld | hheld | hheld
    · exact .inl (.inl hheld)
    · exact .inr (.inl hheld)
    · rcases List.mem_cons.mp hheld with heq | hheld
      · exact .inl (.inr ⟨congrArg Prod.fst heq, congrArg Prod.snd heq⟩)
      · exact .inr (.inr hheld)
  · intro other i name hi hname
    rcases (hgroup other i).mp hi with hi | ⟨rfl, rfl⟩
    · exact h.bound other i name hi hname
    · exact hbound name hname
  · intro name c hc
    obtain ⟨hname, hrank, horder, hmem, hheld⟩ := h.selected name c hc
    refine ⟨hname, hrank, horder, hmem, ?_⟩
    rw [hwhole, hgroup]
    rcases hheld with hheld | hheld | hheld
    · exact .inl (.inl hheld)
    · exact .inr (.inl hheld)
    · rcases List.mem_cons.mp hheld with heq | hheld
      · exact .inl (.inr ⟨congrArg Prod.fst heq, congrArg Prod.snd heq⟩)
      · exact .inr (.inr hheld)
  · intro other i name hi hname
    rw [hwhole]
    exact h.preferred other i name hi hname

/-- More may be pending than is. -/
theorem Selects.mono {pending' : List (List Char × List Char)} (h : Selects chars past pending s)
    (hsub : pending ⊆ pending') : Selects chars past pending' s :=
  { h with
    nameless := fun other i hi hname => (h.nameless other i hi hname).imp_right (Or.imp_right fun hheld => hsub hheld)
    selected := fun name c hc => by
      obtain ⟨hname, hrank, horder, hmem, hheld⟩ := h.selected name c hc
      exact ⟨hname, hrank, horder, hmem, hheld.imp_right (Or.imp_right fun hheld => hsub hheld)⟩ }

/-- **A name gets its first candidate or a better one**: what bound it is gone from the groups. -/
theorem Selects.select {path item name : List Char} (h : Selects chars past pending s)
    (hname : extractRustImportedBinding chars item = some name) (hpending : (path, item) ∈ pending)
    (hbest : ∀ c, s.selectedBindings.get? name = some c → rustImportPreference path name ≤ c.preference)
    {s' : UseSelection} (hselected : s'.selectedBindings = s.selectedBindings)
    (hwildcards : s'.wildcardPrefixes = s.wildcardPrefixes) (horder : s'.itemOrder = s.itemOrder + 1)
    (hgroup : ∀ other i, i ∈ s'.group other ↔ i ∈ s.group other ∧ extractRustImportedBinding chars i ≠ some name)
    (hwhole : ∀ other, ['*'] ∈ s.group other → s'.group other = {['*']}) :
    Selects chars ((path, item) :: past) pending
      (s'.select name ⟨rustImportPreference path name, s.itemOrder, path, item⟩) := by
  have hstar : ∀ other, ['*'] ∈ s'.group other ↔ ['*'] ∈ s.group other := fun other => by
    rw [hgroup, and_iff_left]
    rw [extractRustImportedBinding_star]
    exact Option.some_ne_none name ∘ Eq.symm
  have hget : ∀ other,
      (s'.select name ⟨rustImportPreference path name, s.itemOrder, path, item⟩).selectedBindings.get? other =
      if other = name then some ⟨rustImportPreference path name, s.itemOrder, path, item⟩
      else s.selectedBindings.get? other := fun other => by
    rw [UseSelection.select, hselected, Dict.get?_insert]
  refine ⟨?_, ?_, ?_, ?_, ?_, ?_, ?_⟩
  · intro other i hi
    exact List.mem_cons_of_mem _ (h.listed other i ((hgroup other i).mp hi).1)
  · intro other hother
    exact hwhole other ((hstar other).mp hother)
  · intro other
    show other ∈ s'.wildcardPrefixes ↔ ['*'] ∈ s'.group other
    rw [hwildcards, hstar]
    exact h.wildcards other
  · intro other i hi hnone
    show i ∈ s'.group other ∨ ['*'] ∈ s'.group other ∨ _
    rw [hstar, hgroup, and_iff_left (by rw [hnone]; exact Option.some_ne_none name ∘ Eq.symm)]
    rcases List.mem_cons.mp hi with heq | hi
    · obtain ⟨rfl, rfl⟩ := Prod.mk.inj heq
      rw [hname] at hnone
      cases hnone
    · exact h.nameless other i hi hnone
  · intro other i name' hi hname'
    obtain ⟨hi, hne⟩ := (hgroup other i).mp hi
    rw [hget, if_neg fun heq => hne (by rw [hname', heq])]
    exact h.bound other i name' hi hname'
  · intro name' c hc
    rw [hget] at hc
    show _ ∧ _ ∧ c.itemOrder < s'.itemOrder ∧ _ ∧ (c.item ∈ s'.group c.path ∨ ['*'] ∈ s'.group c.path ∨ _)
    rw [horder]
    split at hc
    · rename_i heq
      obtain rfl := Option.some.inj hc
      rw [heq]
      exact ⟨hname, rfl, Nat.lt_succ_self _, List.mem_cons_self, .inr (.inr hpending)⟩
    · rename_i hne
      obtain ⟨hbinds, hrank, hlt, hmem, hheld⟩ := h.selected name' c hc
      refine ⟨hbinds, hrank, Nat.lt_succ_of_lt hlt, List.mem_cons_of_mem _ hmem, ?_⟩
      rw [hstar, hgroup, and_iff_left fun heq => hne (Option.some.inj (hbinds.symm.trans heq))]
      exact hheld
  · intro other i name' hi hname'
    show ['*'] ∈ s'.group other ∨ _
    rw [hstar, hget]
    split
    · rename_i heq
      rcases List.mem_cons.mp hi with hnew | hi
      · obtain ⟨rfl, rfl⟩ := Prod.mk.inj hnew
        exact .inr ⟨_, rfl, le_of_eq (by rw [heq])⟩
      · rcases h.preferred other i name' hi hname' with hwhole | ⟨c, hc, hle⟩
        · exact .inl hwhole
        · rw [heq] at hc hle ⊢
          exact .inr ⟨_, rfl, (hbest c hc).trans hle⟩
    · rename_i hne
      rcases List.mem_cons.mp hi with hnew | hi
      · obtain ⟨rfl, rfl⟩ := Prod.mk.inj hnew
        exact (hne (Option.some.inj (hname'.symm.trans hname))).elim
      · exact h.preferred other i name' hi hname'

/-- An item more that is pending, and whose name is bound by what is preferred to it. -/
theorem Selects.offer {path item : List Char} (h : Selects chars past pending s) (hpending : (path, item) ∈ pending)
    (hpreferred : ∀ name, extractRustImportedBinding chars item = some name →
      ∃ c, s.selectedBindings.get? name = some c ∧ c.preference ≤ rustImportPreference path name) :
    Selects chars ((path, item) :: past) pending s where
  listed other i hi := List.mem_cons_of_mem _ (h.listed other i hi)
  whole := h.whole
  wildcards := h.wildcards
  nameless other i hi hname := by
    rcases List.mem_cons.mp hi with heq | hi
    · exact .inr (.inr (heq ▸ hpending))
    · exact h.nameless other i hi hname
  bound := h.bound
  selected name c hc := by
    obtain ⟨hname, hrank, horder, hmem, hheld⟩ := h.selected name c hc
    exact ⟨hname, hrank, horder, List.mem_cons_of_mem _ hmem, hheld⟩
  preferred other i name hi hname := by
    rcases List.mem_cons.mp hi with heq | hi
    · obtain ⟨rfl, rfl⟩ := Prod.mk.inj heq
      exact .inr (hpreferred name hname)
    · exact h.preferred other i name hi hname

/-- The counter of the order may go on. -/
theorem Selects.later (h : Selects chars past pending s) :
    Selects chars past pending { s with itemOrder := s.itemOrder + 1 } :=
  { h with
    selected := fun name c hc => by
      obtain ⟨hname, hrank, horder, hmem, hheld⟩ := h.selected name c hc
      exact ⟨hname, hrank, Nat.lt_succ_of_lt horder, hmem, hheld⟩ }

/-- **The item that bound a name so far is let go**: it was in one group, and was the only one to bind the name. -/
theorem Selects.mem_group_erase {name : List Char} {existing : UseCandidate} (h : Selects chars past pending s)
    (hexisting : s.selectedBindings.get? name = some existing) (other i : List Char) :
    i ∈ (s.setGroup existing.path ((s.group existing.path).erase existing.item)).group other ↔
      i ∈ s.group other ∧ extractRustImportedBinding chars i ≠ some name := by
  have hbinds := (h.selected name existing hexisting).1
  have honly : ∀ {path item}, item ∈ s.group path → extractRustImportedBinding chars item = some name →
      existing.path = path ∧ existing.item = item := by
    intro path item hitem hbound
    obtain ⟨c, hc, hpath, hsame⟩ := h.bound path item name hitem hbound
    obtain rfl := Option.some.inj (hexisting.symm.trans hc)
    exact ⟨hpath, hsame⟩
  rw [UseSelection.group_setGroup]
  split
  · rename_i heq
    rw [Finset.mem_erase, and_comm, heq]
    exact and_congr_right fun hi => not_congr ⟨fun hitem => by rw [hitem, hbinds], fun hitem => (honly hi hitem).2.symm⟩
  · rename_i hother
    exact (and_iff_left_of_imp fun hi hitem => hother (honly hi hitem).1.symm).symm

/-- A group that is taken whole loses nothing by it, since a star binds no name. -/
theorem Selects.group_erase_whole {name other : List Char} {existing : UseCandidate} (h : Selects chars past pending s)
    (hexisting : s.selectedBindings.get? name = some existing) (hother : ['*'] ∈ s.group other) :
    (s.setGroup existing.path ((s.group existing.path).erase existing.item)).group other = {['*']} := by
  have hne : existing.item ≠ ['*'] := by
    intro heq
    have hbinds := (h.selected name existing hexisting).1
    rw [heq, extractRustImportedBinding_star] at hbinds
    cases hbinds
  rw [UseSelection.group_setGroup]
  split
  · rename_i heq
    rw [← heq, h.whole other hother, Finset.erase_eq_of_notMem]
    rwa [Finset.mem_singleton]
  · exact h.whole other hother

/-- **One item in the first loop.** -/
theorem selectItem_selects {path item : List Char} (h : Selects chars past pending s)
    (hpending : (path, item) ∈ pending) (hopen : path ∉ s.wildcardPrefixes) (hstar : item ≠ ['*']) :
    Selects chars ((path, item) :: past) pending (UseSelection.selectItem chars path s item) ∧
      (UseSelection.selectItem chars path s item).wildcardPrefixes = s.wildcardPrefixes := by
  rw [UseSelection.selectItem]
  split
  · rename_i hnone
    have hoffer := h.offer hpending fun name hname => by rw [hnone] at hname; cases hname
    refine ⟨(hoffer.mono (List.subset_cons_self _ _)).insert List.mem_cons_self hopen hstar fun name hname => ?_, rfl⟩
    rw [hnone] at hname
    cases hname
  · rename_i name hname
    dsimp only
    split
    · rename_i hfree
      have hfree : s.selectedBindings.get? name = none := hfree
      refine ⟨?_, rfl⟩
      refine h.select hname hpending (fun c hc => ?_) rfl rfl rfl (fun other i => ?_) h.whole
      · rw [hfree] at hc
        cases hc
      · refine (and_iff_left_of_imp fun hi heq => ?_).symm
        obtain ⟨c, hc, -⟩ := h.bound other i name hi heq
        rw [hfree] at hc
        cases hc
    · rename_i existing hexisting
      have hexisting : s.selectedBindings.get? name = some existing := hexisting
      split
      · rename_i hbefore
        have hbest : rustImportPreference path name ≤ existing.preference := by
          rcases hbefore with hbefore | hbefore
          · exact hbefore.le
          · exact hbefore.1.le
        refine ⟨?_, rfl⟩
        refine Selects.insert (Selects.mono
          (h.select hname hpending (fun c hc => ?_) rfl rfl rfl (h.mem_group_erase hexisting)
            fun other hother => h.group_erase_whole hexisting hother)
          (List.subset_cons_self _ _)) List.mem_cons_self hopen hstar fun name' hname' => ?_
        · rw [hexisting] at hc
          rwa [← Option.some.inj hc]
        · rw [hname] at hname'
          obtain rfl := Option.some.inj hname'
          refine ⟨⟨rustImportPreference path name, s.itemOrder, path, item⟩, ?_, rfl, rfl⟩
          rw [UseSelection.select, Dict.get?_insert, if_pos rfl]
      · rename_i hbehind
        refine ⟨(h.offer hpending fun name' hname' => ?_).later, rfl⟩
        rw [hname] at hname'
        obtain rfl := Option.some.inj hname'
        refine ⟨existing, hexisting, ?_⟩
        have hnot : ¬ rustImportPreference path name < existing.preference := fun hlt => hbehind (.inl hlt)
        omega

/-- The first loop over the items of a statement: each of them is offered, and the selection stays
right. The induction is over the items. -/
theorem selectItems_selects {path : List Char} {items : List (List Char)} :
    ∀ {past : List (List Char × List Char)} {s : UseSelection}, Selects chars past pending s →
      (∀ item ∈ items, (path, item) ∈ pending ∧ item ≠ ['*']) → path ∉ s.wildcardPrefixes →
        Selects chars ((items.map fun item => (path, item)) ++ past) pending
            (items.foldl (UseSelection.selectItem chars path) s) ∧
          (items.foldl (UseSelection.selectItem chars path) s).wildcardPrefixes = s.wildcardPrefixes := by
  induction items with
  | nil => exact fun h _ _ => ⟨h, rfl⟩
  | cons item items ih =>
    intro past s h hitems hopen
    obtain ⟨hpending, hstar⟩ := hitems item List.mem_cons_self
    obtain ⟨hone, hsame⟩ := selectItem_selects h hpending hopen hstar
    obtain ⟨hall, hrest⟩ := ih hone (fun i hi => hitems i (List.mem_cons_of_mem _ hi)) (hsame ▸ hopen)
    refine ⟨hall.congr fun offer => ?_, hrest.trans hsame⟩
    simp only [List.map_cons, List.cons_append, List.mem_cons, List.mem_append]
    exact or_left_comm

/-- **One item in the second loop**: it is no longer pending. -/
theorem keepItem_selects {path item : List Char} (h : Selects chars past ((path, item) :: pending) s)
    (hpast : (path, item) ∈ past) (hopen : path ∉ s.wildcardPrefixes) (hstar : item ≠ ['*']) :
    Selects chars past pending (UseSelection.keepItem chars path s item) ∧
      (UseSelection.keepItem chars path s item).wildcardPrefixes = s.wildcardPrefixes := by
  rw [UseSelection.keepItem]
  split
  · rename_i hnone
    refine ⟨h.insert hpast hopen hstar fun name hname => ?_, rfl⟩
    rw [hnone] at hname
    cases hname
  · rename_i name hname
    dsimp only
    split
    · rename_i hmine
      obtain ⟨c, hc, heq⟩ := Option.map_eq_some_iff.mp hmine
      refine ⟨h.insert hpast hopen hstar fun name' hname' => ?_, rfl⟩
      rw [hname] at hname'
      obtain rfl := Option.some.inj hname'
      exact ⟨c, hc, congrArg Prod.fst heq, congrArg Prod.snd heq⟩
    · rename_i hother
      refine ⟨{ h with nameless := fun other i hi hnone => ?_, selected := fun name' c hc => ?_ }, rfl⟩
      · rcases h.nameless other i hi hnone with hheld | hheld | hheld
        · exact .inl hheld
        · exact .inr (.inl hheld)
        · rcases List.mem_cons.mp hheld with heq | hheld
          · obtain ⟨rfl, rfl⟩ := Prod.mk.inj heq
            rw [hname] at hnone
            cases hnone
          · exact .inr (.inr hheld)
      · obtain ⟨hbinds, hrank, hlt, hmem, hheld⟩ := h.selected name' c hc
        refine ⟨hbinds, hrank, hlt, hmem, ?_⟩
        rcases hheld with hheld | hheld | hheld
        · exact .inl hheld
        · exact .inr (.inl hheld)
        · rcases List.mem_cons.mp hheld with heq | hheld
          · refine (hother ?_).elim
            obtain ⟨hpath, hitem⟩ := Prod.mk.inj heq
            rw [hitem, hname] at hbinds
            rw [Option.some.inj hbinds, hc, Option.map_some, hpath, hitem]
          · exact .inr (.inr hheld)

/-- The second loop keeps the items that are chosen, after which nothing is pending. -/
theorem keepItems_selects {path : List Char} {items : List (List Char)} :
    ∀ {s : UseSelection}, Selects chars past (items.map fun item => (path, item)) s →
      (∀ item ∈ items, (path, item) ∈ past ∧ item ≠ ['*']) → path ∉ s.wildcardPrefixes →
        Selects chars past [] (items.foldl (UseSelection.keepItem chars path) s) ∧
          (items.foldl (UseSelection.keepItem chars path) s).wildcardPrefixes = s.wildcardPrefixes := by
  induction items with
  | nil => exact fun h _ _ => ⟨h, rfl⟩
  | cons item items ih =>
    intro s h hitems hopen
    obtain ⟨hpast, hstar⟩ := hitems item List.mem_cons_self
    obtain ⟨hone, hsame⟩ := keepItem_selects h hpast hopen hstar
    obtain ⟨hall, hrest⟩ := ih hone (fun i hi => hitems i (List.mem_cons_of_mem _ hi)) (hsame ▸ hopen)
    exact ⟨hall, hrest.trans hsame⟩

/-- The items of some statements, with their paths. -/
def offersOf (statements : List UseStatement) : List (List Char × List Char) :=
  statements.flatMap UseStatement.offers

/-- What statements offer are the items of each under its path. -/
theorem mem_offersOf {statements : List UseStatement} {path item : List Char} :
    (path, item) ∈ offersOf statements ↔ ∃ statement ∈ statements, statement.path = path ∧ item ∈ statement.items := by
  simp only [offersOf, UseStatement.offers, List.mem_flatMap, List.mem_map, Prod.mk.injEq]
  constructor
  · rintro ⟨statement, hstatement, i, hi, hpath, rfl⟩
    exact ⟨statement, hstatement, hpath, hi⟩
  · rintro ⟨statement, hstatement, hpath, hi⟩
    exact ⟨statement, hstatement, item, hi, hpath, rfl⟩

/-- One more statement adds its offers. -/
theorem offersOf_snoc (statements : List UseStatement) (statement : UseStatement) :
    offersOf (statements ++ [statement]) = offersOf statements ++ statement.offers := by
  rw [offersOf, List.flatMap_append, List.flatMap_singleton]
  rfl

/-- A path without a group gets an empty one. -/
theorem Selects.openGroup (h : Selects chars past pending s) (path : List Char) :
    Selects chars past pending (s.openGroup path) := by
  have hgroup := UseSelection.group_openGroup s path
  refine ⟨?_, ?_, ?_, ?_, ?_, ?_, ?_⟩
  · simp only [hgroup]
    exact h.listed
  · simp only [hgroup]
    exact h.whole
  · simp only [hgroup]
    exact h.wildcards
  · simp only [hgroup]
    exact h.nameless
  · simp only [hgroup]
    exact h.bound
  · simp only [hgroup]
    exact h.selected
  · simp only [hgroup]
    exact h.preferred

/-- A path is imported whole. -/
theorem Selects.takeWhole (h : Selects chars past [] s) {statement : UseStatement} (hstar : ['*'] ∈ statement.items) :
    Selects chars (past ++ statement.offers) []
      (s.takeWhole statement.path) := by
  have hgroup := UseSelection.group_takeWhole s statement.path
  have hold : ∀ {other i}, (other, i) ∈ past ++ statement.offers →
      other ≠ statement.path → (other, i) ∈ past := fun hi hne => by
    rcases List.mem_append.mp hi with hi | hi
    · exact hi
    · obtain ⟨item, -, heq⟩ := List.mem_map.mp hi
      exact (hne (congrArg Prod.fst heq).symm).elim
  refine ⟨?_, ?_, ?_, ?_, ?_, ?_, ?_⟩
  · intro other i hi
    rw [hgroup] at hi
    split at hi
    · rename_i heq
      rw [Finset.mem_singleton.mp hi, heq]
      exact List.mem_append_right _ (List.mem_map_of_mem hstar)
    · exact List.mem_append_left _ (h.listed other i hi)
  · intro other hother
    rw [hgroup] at hother ⊢
    by_cases heq : other = statement.path
    · rw [if_pos heq]
    · rw [if_neg heq] at hother ⊢
      exact h.whole other hother
  · intro other
    rw [hgroup, UseSelection.takeWhole, Finset.mem_insert, h.wildcards]
    split
    · rename_i heq
      exact ⟨fun _ => Finset.mem_singleton_self _, fun _ => .inl heq⟩
    · rename_i hne
      exact or_iff_right hne
  · intro other i hi hname
    rw [hgroup]
    split
    · exact .inr (.inl (Finset.mem_singleton_self _))
    · rename_i hne
      exact h.nameless other i (hold hi hne) hname
  · intro other i name hi hname
    rw [hgroup] at hi
    split at hi
    · rw [Finset.mem_singleton.mp hi, extractRustImportedBinding_star] at hname
      cases hname
    · exact h.bound other i name hi hname
  · intro name c hc
    obtain ⟨hname, hrank, horder, hmem, hheld⟩ := h.selected name c hc
    refine ⟨hname, hrank, horder, List.mem_append_left _ hmem, ?_⟩
    rw [hgroup]
    split
    · exact .inr (.inl (Finset.mem_singleton_self _))
    · exact hheld
  · intro other i name hi hname
    rw [hgroup]
    split
    · exact .inl (Finset.mem_singleton_self _)
    · rename_i hne
      exact h.preferred other i name (hold hi hne) hname

/-- A statement for a path that is imported whole is swallowed. -/
theorem Selects.swallow (h : Selects chars past [] s) {statement : UseStatement}
    (hwhole : statement.path ∈ s.wildcardPrefixes) :
    Selects chars (past ++ statement.offers) [] s := by
  have hstar := (h.wildcards statement.path).mp hwhole
  have hold : ∀ {other i}, (other, i) ∈ past ++ statement.offers →
      ['*'] ∈ s.group other ∨ (other, i) ∈ past := fun hi => by
    rcases List.mem_append.mp hi with hi | hi
    · exact .inr hi
    · obtain ⟨item, -, heq⟩ := List.mem_map.mp hi
      obtain ⟨rfl, rfl⟩ := Prod.mk.inj heq
      exact .inl hstar
  refine { h with
    listed := fun other i hi => ?_
    nameless := fun other i hi hname => ?_
    selected := fun name c hc => ?_
    preferred := fun other i name hi hname => ?_ }
  · exact List.mem_append_left _ (h.listed other i hi)
  · rcases hold hi with hwhole | hi
    · exact .inr (.inl hwhole)
    · exact h.nameless other i hi hname
  · obtain ⟨hname, hrank, horder, hmem, hheld⟩ := h.selected name c hc
    exact ⟨hname, hrank, horder, List.mem_append_left _ hmem, hheld⟩
  · rcases hold hi with hwhole | hi
    · exact .inl hwhole
    · exact h.preferred other i name hi hname

/-- **One statement.** -/
theorem useStatement_selects (h : Selects chars past [] s) (statement : UseStatement) :
    Selects chars (past ++ statement.offers) []
      (UseSelection.useStatement chars s statement) := by
  rw [UseSelection.useStatement]
  have hopen := h.openGroup statement.path
  split
  · rename_i hstar
    exact hopen.takeWhole (List.contains_iff_mem.mp hstar)
  · rename_i hstar
    split
    · rename_i hwhole
      exact hopen.swallow hwhole
    · rename_i hnotWhole
      have hne : ∀ item ∈ statement.items, item ≠ ['*'] := fun item hitem heq =>
        hstar (List.contains_iff_mem.mpr (heq ▸ hitem))
      obtain ⟨hfirst, hsame⟩ := selectItems_selects (hopen.mono (List.nil_subset statement.offers))
        (fun item hitem => ⟨List.mem_map_of_mem hitem, hne item hitem⟩) hnotWhole
      have hsecond := (keepItems_selects hfirst
        (fun item hitem => ⟨List.mem_append_left _ (List.mem_map_of_mem hitem), hne item hitem⟩) (hsame ▸ hnotWhole)).1
      refine hsecond.congr fun offer => ?_
      rw [List.mem_append, List.mem_append]
      exact or_comm

/-- One more statement is selected from last. -/
theorem selectionOf_snoc (statements : List UseStatement) (statement : UseStatement) :
    selectionOf chars (statements ++ [statement]) =
      UseSelection.useStatement chars (selectionOf chars statements) statement := by
  rw [selectionOf, List.foldl_append]
  rfl

/-- **The invariant of the loop.** -/
theorem useStatements_selects (statements : List UseStatement) :
    Selects chars (offersOf statements) [] (selectionOf chars statements) := by
  induction statements using List.reverseRecOn with
  | nil =>
    refine ⟨?_, ?_, ?_, ?_, ?_, ?_, ?_⟩ <;>
      simp [selectionOf, noUses, UseSelection.group, Dict.get?, Dict.empty, offersOf]
  | append_singleton statements statement ih =>
    rw [selectionOf_snoc, offersOf_snoc]
    exact useStatement_selects ih statement

/-! ## The order of the paths -/

/-- Each name is bound by an item of a group. -/
def Opened (s : UseSelection) : Prop :=
  ∀ name c, s.selectedBindings.get? name = some c → c.path ∈ s.groupedImports.keys

/-- Setting the items of a path that is there adds no path. -/
theorem keys_setGroup {path : List Char} (hpath : path ∈ s.groupedImports.keys) (items : Finset (List Char)) :
    (s.setGroup path items).groupedImports.keys = s.groupedImports.keys := by
  rw [UseSelection.setGroup, Dict.keys_insert, if_pos hpath]

/-- Choosing an item adds no path, and every path stays open. -/
theorem selectItem_keys {path : List Char} (hpath : path ∈ s.groupedImports.keys) (hopened : Opened s)
    (item : List Char) : (UseSelection.selectItem chars path s item).groupedImports.keys = s.groupedImports.keys ∧
      Opened (UseSelection.selectItem chars path s item) := by
  rw [UseSelection.selectItem]
  split
  · have hkeys := keys_setGroup hpath (insert item (s.group path))
    refine ⟨hkeys, fun name c hc => ?_⟩
    rw [hkeys]
    exact hopened name c hc
  · rename_i name _
    have hselect : ∀ {s' : UseSelection}, s'.groupedImports.keys = s.groupedImports.keys →
        s'.selectedBindings = s.selectedBindings → ∀ candidate : UseCandidate, candidate.path = path →
          Opened (s'.select name candidate) := by
      intro s' hkeys hsame candidate hcandidate other c hc
      show c.path ∈ s'.groupedImports.keys
      rw [hkeys]
      rw [UseSelection.select, hsame, Dict.get?_insert] at hc
      split at hc
      · rw [← Option.some.inj hc, hcandidate]
        exact hpath
      · exact hopened other c hc
    have hbetter : ∀ {s' : UseSelection}, s'.groupedImports.keys = s.groupedImports.keys →
        s'.selectedBindings = s.selectedBindings → ∀ candidate : UseCandidate, candidate.path = path →
          ∀ items, ((s'.select name candidate).setGroup path items).groupedImports.keys = s.groupedImports.keys ∧
            Opened ((s'.select name candidate).setGroup path items) := by
      intro s' hkeys hsame candidate hcandidate items
      have hmem : path ∈ (s'.select name candidate).groupedImports.keys := by
        show path ∈ s'.groupedImports.keys
        rw [hkeys]
        exact hpath
      refine ⟨(keys_setGroup hmem items).trans hkeys, fun other c hc => ?_⟩
      rw [keys_setGroup hmem]
      exact hselect hkeys hsame candidate hcandidate other c hc
    dsimp only
    split
    · exact ⟨rfl, hselect rfl rfl _ rfl⟩
    · rename_i existing hexisting
      have hexisting : existing.path ∈ s.groupedImports.keys := hopened name existing hexisting
      split
      · have herased := keys_setGroup hexisting ((s.group existing.path).erase existing.item)
        exact hbetter herased rfl _ rfl _
      · exact ⟨rfl, hopened⟩

/-- Keeping an item adds no path either. -/
theorem keepItem_keys {path : List Char} (hpath : path ∈ s.groupedImports.keys) (hopened : Opened s)
    (item : List Char) : (UseSelection.keepItem chars path s item).groupedImports.keys = s.groupedImports.keys ∧
      Opened (UseSelection.keepItem chars path s item) := by
  have hkeys := keys_setGroup hpath (insert item (s.group path))
  have hadded : Opened (s.setGroup path (insert item (s.group path))) := fun name c hc => by
    rw [hkeys]
    exact hopened name c hc
  rw [UseSelection.keepItem]
  split
  · exact ⟨hkeys, hadded⟩
  · dsimp only
    split
    · exact ⟨hkeys, hadded⟩
    · exact ⟨rfl, hopened⟩

/-- A loop over items that keeps the groups there are. -/
theorem foldl_keys {path : List Char} {step : UseSelection → List Char → UseSelection}
    (hstep : ∀ {s : UseSelection}, path ∈ s.groupedImports.keys → Opened s → ∀ item,
      (step s item).groupedImports.keys = s.groupedImports.keys ∧ Opened (step s item)) (items : List (List Char)) :
    ∀ {s : UseSelection}, path ∈ s.groupedImports.keys → Opened s →
      (items.foldl step s).groupedImports.keys = s.groupedImports.keys ∧ Opened (items.foldl step s) := by
  induction items with
  | nil => exact fun _ hopened => ⟨rfl, hopened⟩
  | cons item items ih =>
    intro s hpath hopened
    obtain ⟨hkeys, hnext⟩ := hstep hpath hopened item
    obtain ⟨hrest, hend⟩ := ih (hkeys ▸ hpath) hnext
    exact ⟨hrest.trans hkeys, hend⟩

/-- A path more, if it is not there. -/
def addPath (paths : List (List Char)) (path : List Char) : List (List Char) :=
  if paths.contains path then paths else paths ++ [path]

/-- A path that is there is not added again. -/
theorem addPath_of_mem {paths : List (List Char)} {path : List Char} (h : path ∈ paths) : addPath paths path = paths :=
  if_pos (List.contains_iff_mem.mpr h)

/-- A new path is added last. -/
theorem addPath_of_notMem {paths : List (List Char)} {path : List Char} (h : path ∉ paths) :
    addPath paths path = paths ++ [path] := if_neg (mt List.contains_iff_mem.mp h)

/-- Adding a path adds that one. -/
theorem mem_addPath {paths : List (List Char)} {path other : List Char} :
    other ∈ addPath paths path ↔ other ∈ paths ∨ other = path := by
  by_cases h : path ∈ paths
  · rw [addPath_of_mem h]
    exact ⟨.inl, fun hother => hother.elim id fun heq => heq ▸ h⟩
  · rw [addPath_of_notMem h, List.mem_append, List.mem_singleton]

/-- Opening a group adds its path. -/
theorem keys_openGroup (s : UseSelection) (path : List Char) :
    (s.openGroup path).groupedImports.keys = addPath s.groupedImports.keys path := by
  by_cases h : path ∈ s.groupedImports.keys
  · rw [addPath_of_mem h, UseSelection.openGroup, Dict.setdefault_of_mem h]
  · rw [addPath_of_notMem h, UseSelection.openGroup, Dict.setdefault, if_neg h, Dict.keys_insert, if_neg h]

/-- A statement adds its path and no other, in the order of the statements. -/
theorem useStatement_keys (hopened : Opened s) (statement : UseStatement) :
    (UseSelection.useStatement chars s statement).groupedImports.keys =
        addPath s.groupedImports.keys statement.path ∧
      Opened (UseSelection.useStatement chars s statement) := by
  have hmem : statement.path ∈ (s.openGroup statement.path).groupedImports.keys := by
    rw [keys_openGroup]
    exact mem_addPath.mpr (.inr rfl)
  have hopened : Opened (s.openGroup statement.path) := fun name c hc => by
    rw [keys_openGroup]
    exact mem_addPath.mpr (.inl (hopened name c hc))
  rw [UseSelection.useStatement, ← keys_openGroup]
  split
  · have hkeys := keys_setGroup hmem {['*']}
    refine ⟨hkeys, fun name c hc => ?_⟩
    show c.path ∈ ((s.openGroup statement.path).setGroup statement.path {['*']}).groupedImports.keys
    rw [hkeys]
    exact hopened name c hc
  · split
    · exact ⟨rfl, hopened⟩
    · obtain ⟨hfirst, hnext⟩ := foldl_keys selectItem_keys statement.items hmem hopened
      obtain ⟨hsecond, hend⟩ := foldl_keys keepItem_keys statement.items (hfirst ▸ hmem) hnext
      exact ⟨hsecond.trans hfirst, hend⟩

/-- The paths in the order in which they come first. -/
def firstPaths (statements : List UseStatement) : List (List Char) :=
  statements.foldl (fun paths statement => addPath paths statement.path) []

/-- One more statement adds its path at the end, if it is new. -/
theorem firstPaths_snoc (statements : List UseStatement) (statement : UseStatement) :
    firstPaths (statements ++ [statement]) = addPath (firstPaths statements) statement.path := by
  rw [firstPaths, List.foldl_append]
  rfl

/-- The paths are those of the statements. -/
theorem mem_firstPaths {statements : List UseStatement} {path : List Char} :
    path ∈ firstPaths statements ↔ path ∈ statements.map (·.path) := by
  induction statements using List.reverseRecOn with
  | nil => exact Iff.rfl
  | append_singleton statements statement ih =>
    rw [firstPaths_snoc, List.map_append, List.mem_append, List.map_singleton, List.mem_singleton, ← ih, mem_addPath]

/-- Paths that are all different stay as they stand. -/
theorem firstPaths_of_nodup {statements : List UseStatement} (h : (statements.map (·.path)).Nodup) :
    firstPaths statements = statements.map (·.path) := by
  induction statements using List.reverseRecOn with
  | nil => rfl
  | append_singleton statements statement ih =>
    rw [List.map_append, List.map_singleton] at h ⊢
    obtain ⟨hnodup, -, hnew⟩ := List.nodup_append.mp h
    have hnotMem : statement.path ∉ firstPaths statements := fun hmem =>
      hnew _ (mem_firstPaths.mp hmem) _ (List.mem_singleton_self _) rfl
    rw [firstPaths_snoc, addPath_of_notMem hnotMem, ih hnodup]

/-- So the selection has the paths of the statements, each where it came first. -/
theorem useStatements_keys (statements : List UseStatement) :
    (selectionOf chars statements).groupedImports.keys = firstPaths statements ∧
      Opened (selectionOf chars statements) := by
  induction statements using List.reverseRecOn with
  | nil => exact ⟨rfl, fun name c hc => by cases hc⟩
  | append_singleton statements statement ih =>
    obtain ⟨hkeys, hopened⟩ := ih
    rw [firstPaths_snoc, ← hkeys, selectionOf_snoc]
    exact useStatement_keys hopened statement

/-! ## What comes out -/

/-- Sorting items loses none; a star stands alone. -/
theorem mem_sortedItems {items : Finset (List Char)} (hwhole : ['*'] ∈ items → items = {['*']}) {item : List Char} :
    item ∈ sortedItems items ↔ item ∈ items := by
  rw [sortedItems]
  split
  · rename_i hstar
    rw [hwhole hstar, List.mem_singleton, Finset.mem_singleton]
  · exact (SetOrder.ascending (List Char)).mem_toList _ _

variable (chars) in
/-- **The statement of a path.** -/
theorem mem_dedupUses {statements : List UseStatement} {statement : UseStatement} :
    statement ∈ dedupUses chars statements ↔ statement.path ∈ statements.map (·.path) ∧
      statement.items = sortedItems ((selectionOf chars statements).group statement.path) := by
  rw [dedupUses, List.mem_map, (useStatements_keys statements).1]
  simp only [mem_firstPaths]
  constructor
  · rintro ⟨path, hpath, rfl⟩
    exact ⟨hpath, rfl⟩
  · rintro ⟨hpath, hitems⟩
    exact ⟨statement.path, hpath, by rw [← hitems]⟩

/-- The statements that are written have the paths of those that were read, each once. -/
theorem dedupUses_paths (statements : List UseStatement) :
    (dedupUses chars statements).map (·.path) = firstPaths statements := by
  rw [dedupUses, List.map_map, ← (@useStatements_keys chars statements).1]
  exact List.map_id' _

/-- An item is imported from a path, by itself or with all that is there. -/
def Imports (statements : List UseStatement) (path item : List Char) : Prop :=
  ∃ statement ∈ statements, statement.path = path ∧ (item ∈ statement.items ∨ ['*'] ∈ statement.items)

variable (chars) in
/-- **Statements put together**: there is one for each path, with items that are listed for it. No name is imported
twice. What has no name is kept, and a name is imported from a path than which no path that lists it is preferred, or a
path that lists it is imported whole. -/
structure Deduplicated (statements result : List UseStatement) : Prop where
  paths : (result.map (·.path)).Nodup
  samePaths : ∀ path, path ∈ result.map (·.path) ↔ path ∈ statements.map (·.path)
  listed : ∀ u ∈ result, ∀ item ∈ u.items, ∃ v ∈ statements, v.path = u.path ∧ item ∈ v.items
  whole : ∀ u ∈ result, ['*'] ∈ u.items → u.items = [['*']]
  sorted : ∀ u ∈ result, u.items.Pairwise (· ≤ ·) ∧ u.items.Nodup
  once : ∀ u ∈ result, ∀ v ∈ result, ∀ i ∈ u.items, ∀ j ∈ v.items, ∀ name,
    extractRustImportedBinding chars i = some name → extractRustImportedBinding chars j = some name → u = v ∧ i = j
  nameless : ∀ v ∈ statements, ∀ item ∈ v.items, extractRustImportedBinding chars item = none →
    Imports result v.path item
  named : ∀ v ∈ statements, ∀ item ∈ v.items, ∀ name, extractRustImportedBinding chars item = some name →
    Imports result v.path ['*'] ∨ ∃ w ∈ statements, ∃ best ∈ w.items,
      extractRustImportedBinding chars best = some name ∧
        rustImportPreference w.path name ≤ rustImportPreference v.path name ∧ Imports result w.path best

/-- What is written is deduplicated: no binding is introduced twice, and none of those offered is
lost. -/
theorem deduplicated_dedupUses (statements : List UseStatement) :
    Deduplicated chars statements (dedupUses chars statements) := by
  have hInv := @useStatements_selects chars statements
  have hmem : ∀ {u}, u ∈ dedupUses chars statements → ∀ {item}, item ∈ u.items ↔
      item ∈ (selectionOf chars statements).group u.path := fun hu item => by
    rw [((mem_dedupUses chars).mp hu).2, mem_sortedItems (hInv.whole _)]
  have hgroup : ∀ {v}, v ∈ statements →
      ⟨v.path, sortedItems ((selectionOf chars statements).group v.path)⟩ ∈
        dedupUses chars statements := fun {v} hv =>
      (mem_dedupUses chars).mpr ⟨List.mem_map.mpr ⟨v, hv, rfl⟩, rfl⟩
  have himports : ∀ {path item}, (path, item) ∈ offersOf statements →
      item ∈ (selectionOf chars statements).group path ∨
        ['*'] ∈ (selectionOf chars statements).group path →
      Imports (dedupUses chars statements) path item := fun {path item} hoffer hheld => by
    obtain ⟨v, hv, rfl, -⟩ := mem_offersOf.mp hoffer
    exact ⟨_, hgroup hv, rfl, by rwa [hmem (hgroup hv), hmem (hgroup hv)]⟩
  refine ⟨?_, ?_, ?_, ?_, ?_, ?_, ?_, ?_⟩
  · rw [dedupUses_paths, ← (@useStatements_keys chars statements).1]
    exact Dict.keys_nodup _
  · intro path
    rw [dedupUses_paths]
    exact mem_firstPaths
  · intro u hu item hitem
    exact mem_offersOf.mp (hInv.listed u.path item ((hmem hu).mp hitem))
  · intro u hu hstar
    rw [((mem_dedupUses chars).mp hu).2, sortedItems, if_pos ((hmem hu).mp hstar)]
  · intro u hu
    rw [((mem_dedupUses chars).mp hu).2, sortedItems]
    split
    · exact ⟨List.pairwise_singleton _ _, List.nodup_singleton _⟩
    · exact ⟨Finset.pairwise_sort _ _, (SetOrder.ascending (List Char)).nodup _⟩
  · intro u hu v hv i hi j hj name hiname hjname
    obtain ⟨c, hc, hcpath, hcitem⟩ := hInv.bound u.path i name ((hmem hu).mp hi) hiname
    obtain ⟨d, hd, hdpath, hditem⟩ := hInv.bound v.path j name ((hmem hv).mp hj) hjname
    obtain rfl := Option.some.inj (hc.symm.trans hd)
    have hpath : u.path = v.path := hcpath.symm.trans hdpath
    refine ⟨?_, hcitem.symm.trans hditem⟩
    have hitems : u.items = v.items := by
      rw [((mem_dedupUses chars).mp hu).2, ((mem_dedupUses chars).mp hv).2, hpath]
    exact UseStatement.ext hpath hitems
  · intro v hv item hitem hname
    have hoffer := mem_offersOf.mpr ⟨v, hv, rfl, hitem⟩
    rcases hInv.nameless v.path item hoffer hname with hheld | hheld | hheld
    · exact himports hoffer (.inl hheld)
    · exact himports hoffer (.inr hheld)
    · cases hheld
  · intro v hv item hitem name hname
    have hoffer := mem_offersOf.mpr ⟨v, hv, rfl, hitem⟩
    rcases hInv.preferred v.path item name hoffer hname with hwhole | ⟨c, hc, hle⟩
    · exact .inl ⟨_, hgroup hv, rfl, .inl ((hmem (hgroup hv)).mpr hwhole)⟩
    · obtain ⟨hbinds, hrank, -, hpast, hheld⟩ := hInv.selected name c hc
      obtain ⟨w, hw, hpath, hbest⟩ := mem_offersOf.mp hpast
      refine .inr ⟨w, hw, c.item, hbest, hbinds, by rw [hpath, ← hrank]; exact hle, ?_⟩
      rw [hpath]
      rcases hheld with hheld | hheld | hheld
      · exact himports hpast (.inl hheld)
      · exact himports hpast (.inr hheld)
      · cases hheld

/-- Statements that are put together as they are. -/
theorem Deduplicated.items_eq {statements result : List UseStatement} (h : Deduplicated chars statements result)
    (hpaths : (statements.map (·.path)).Nodup) (hwhole : ∀ v ∈ statements, ['*'] ∈ v.items → v.items = [['*']])
    (hsorted : ∀ v ∈ statements, v.items.Pairwise (· ≤ ·) ∧ v.items.Nodup)
    (honce : ∀ u ∈ statements, ∀ v ∈ statements, ∀ i ∈ u.items, ∀ j ∈ v.items, ∀ name,
      extractRustImportedBinding chars i = some name → extractRustImportedBinding chars j = some name → u = v ∧ i = j)
    {u v : UseStatement} (hu : u ∈ result) (hv : v ∈ statements) (hpath : u.path = v.path) : u.items = v.items := by
  have hunique : ∀ {w}, w ∈ statements → w.path = v.path → w = v := fun hw heq =>
    List.inj_on_of_nodup_map hpaths hw hv heq
  have hresult : ∀ {w}, w ∈ result → w.path = v.path → w = u := fun hw heq =>
    List.inj_on_of_nodup_map h.paths hw hu (heq.trans hpath.symm)
  have hsub : ∀ item ∈ u.items, item ∈ v.items := fun item hitem => by
    obtain ⟨w, hw, heq, hin⟩ := h.listed u hu item hitem
    rwa [hunique hw (heq.trans hpath)] at hin
  have himport : ∀ {item}, item ∈ v.items → Imports result v.path item → item ∈ u.items := by
    intro item hitem himports
    obtain ⟨w, hw, heq, hin⟩ := himports
    rw [hresult hw heq] at hin
    rcases hin with hin | hstar
    · exact hin
    · rw [hwhole v hv (hsub _ hstar), List.mem_singleton] at hitem
      rwa [hitem]
  have hsup : ∀ item ∈ v.items, item ∈ u.items := fun item hitem => by
    cases hname : extractRustImportedBinding chars item with
    | none => exact himport hitem (h.nameless v hv item hitem hname)
    | some name =>
      rcases h.named v hv item hitem name hname with hstar | ⟨w, hw, best, hbest, hbinds, -, himports⟩
      · obtain ⟨w, hw, heq, hin⟩ := hstar
        rw [hresult hw heq, or_self] at hin
        rw [hwhole v hv (hsub _ hin), List.mem_singleton] at hitem
        rw [hitem, extractRustImportedBinding_star] at hname
        cases hname
      · obtain ⟨rfl, rfl⟩ := honce w hw v hv best hbest item hitem name hbinds hname
        exact himport hitem himports
  have hperm : u.items.Perm v.items :=
    (List.perm_ext_iff_of_nodup (h.sorted u hu).2 (hsorted v hv).2).mpr fun item => ⟨hsub item, hsup item⟩
  exact hperm.eq_of_pairwise (fun _ _ _ _ => Std.Antisymm.antisymm _ _) (h.sorted u hu).1 (hsorted v hv).1

/-- **Putting statements together again changes nothing.** What is left after one run has a statement for each path
and no name twice, and the second run drops no name of it and merges no path. -/
theorem dedupUses_dedupUses (statements : List UseStatement) :
    dedupUses chars (dedupUses chars statements) = dedupUses chars statements := by
  have hfirst := @deduplicated_dedupUses chars statements
  have hsecond := @deduplicated_dedupUses chars (dedupUses chars statements)
  have hsamePaths : (dedupUses chars (dedupUses chars statements)).map (·.path) =
      (dedupUses chars statements).map (·.path) := by
    rw [dedupUses_paths, firstPaths_of_nodup hfirst.paths]
  refine List.ext_getElem (by simpa only [List.length_map] using congrArg List.length hsamePaths) fun n hn hn' => ?_
  have hpath : ((dedupUses chars (dedupUses chars statements))[n]).path = ((dedupUses chars statements)[n]).path := by
    have hentry := congrArg (·[n]?) hsamePaths
    simp only [List.getElem?_map, List.getElem?_eq_getElem hn, List.getElem?_eq_getElem hn', Option.map_some] at hentry
    exact Option.some.inj hentry
  have hitems := hsecond.items_eq hfirst.paths hfirst.whole hfirst.sorted hfirst.once (List.getElem_mem hn)
    (List.getElem_mem hn') hpath
  exact UseStatement.ext hpath hitems

/-- **`dedupUseStatements`** keeps the statements that it cannot parse, as they are and in front, and puts the others
together, with no name imported twice and each from a path than which none is preferred, whatever the order in
which a set is gone through. -/
theorem dedupUseStatements_spec (order : SetOrder (List Char)) (uses : List (List Char)) :
    ∃ result, Deduplicated chars ((orderedUses chars uses).filterMap (parseRustUseStatement chars order)) result ∧
      dedupUseStatements chars order uses =
        (orderedUses chars uses).filter (fun useStmt => (parseRustUseStatement chars order useStmt).isNone) ++
          result.map useText :=
  ⟨_, deduplicated_dedupUses _, rfl⟩

end Invariant

end Assure
