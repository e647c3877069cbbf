import Mathlib.Order.Bounds.Basic
import Assure.Library.Collections
import Assure.Library.Tail
import Assure.Types.ByteCursor

/-!
# Tags of byte buffers

`propagate_byte_buffer_tags` spreads the tag of a byte buffer from field to field along the moves `x->b = x->a` in the use
lines of a struct, until nothing changes. It then writes the tag on a use line of each field that it has tagged: on the
first one in the field's own list whose first move is into the field. A move may be listed under the other field alone;
then the field is tagged, but none of its lines is, and the next call tags it again.

The equivalence is for every registry, with any fields, use lines and struct text. The regular
expressions are patterns with backtracking, and what they read is not compared with a grammar of C.
-/

namespace Assure

open Assure.Library Pattern Relation

variable (chars : CharClass)

/-- **`BYTE_BUFFER_TAG`** -/
def byteBufferTag : String := "  [BYTE BUFFER: cursor build verified - must become std::vector<unsigned char>]"

/-- **`_TAG_CORE`** -/
def tagCore : String := "[BYTE BUFFER: cursor build verified - must become std::vector<unsigned char>]"

/-! ## The patterns -/

/-- `\s*(?:->|\.)\s*` -/
def fieldSeparator : Pattern Unit := do
  let _ ← many chars.space
  orElse (lit "->") (lit ".")
  let _ ← many chars.space

/-- A chain of names and the field at its end. -/
def fieldAccess : Pattern (List Char) := do
  let _ ← cName chars
  star do
    fieldSeparator chars
    let _ ← cName chars
  fieldSeparator chars
  cName chars

/-- **`_FIELD_TO_FIELD_MOVE_RE`**: the fields on the two sides. -/
def fieldToFieldMove : Pattern (List Char × List Char) := do
  let lhsField ← fieldAccess chars
  let _ ← many chars.space
  lit "="
  let _ ← many chars.space
  let rhsField ← fieldAccess chars
  notBefore continuesName
  return (lhsField, rhsField)

/-- `(?:const\s+|volatile\s+)*` -/
def qualifiers : Pattern Unit := star do
  orElse (lit "const") (lit "volatile")
  let _ ← many1 chars.space

/-- `\bchar\b[^;{}]*?` -/
def charDeclaration : Pattern Unit := do
  boundary chars
  lit "char"
  boundary chars
  let _ ← lazily (many fun c => !([';', '\x7b', '\x7d'].contains c))

/-- The declaration of a field with two stars. -/
def doubleStar (fieldName : List Char) : Pattern Unit := do
  charDeclaration chars
  lit "*"
  let _ ← many chars.space
  lit "*"
  let _ ← many chars.space
  qualifiers chars
  Pattern.chars fieldName
  boundary chars

/-- The declaration of a field with one star. -/
def singleStar (fieldName : List Char) : Pattern Unit := do
  charDeclaration chars
  lit "*"
  let _ ← many chars.space
  qualifiers chars
  boundary chars
  Pattern.chars fieldName
  boundary chars
  let _ ← many chars.space
  let _ ← one fun c => c == ';' || c == ','

/-- **`is_char_star_field`** -/
def isCharStarField (structCCode : String) (fieldName : List Char) : Bool :=
  if structCCode = "" ∨ fieldName = [] then false
  else
    let body := stripBlockComments structCCode
    if (doubleStar chars fieldName).found body then false else (singleStar chars fieldName).found body

/-! ## The propagation -/

/-- The use lines of each field. -/
abbrev UsageList := Dict (List Char) (List String)

/-- The fields with a tagged line. -/
def taggedFields (usageList : UsageList) : Finset (List Char) :=
  ((usageList.entries.filter fun entry => entry.2.any (contains · tagCore)).map Prod.fst).toFinset

/-- The moves in the lines of all fields, from one field of the struct into another: `(lhs_field, rhs_field)`. -/
def moveEdges (usageList : UsageList) : List (List Char × List Char) :=
  usageList.entries.flatMap fun entry => entry.2.flatMap fun line =>
    ((fieldToFieldMove chars).findAll line.toList).filter fun move =>
      move.1 ≠ move.2 ∧ move.1 ∈ usageList.keys ∧ move.2 ∈ usageList.keys

/-- The edges along which a tag spreads: from the right side of a move to the left, if that is a `char *`. -/
def tagEdges (usageList : UsageList) (structCCode : String) : List (List Char × List Char) :=
  ((moveEdges chars usageList).filter fun move => isCharStarField chars structCCode move.1).map Prod.swap

/-- The fields that are tagged in the end. -/
def taggedInTheEnd (usageList : UsageList) (structCCode : String) : Finset (List Char) :=
  sweeps (tagEdges chars usageList structCCode) (usageList.entries.length + 1) (taggedFields usageList)

/-- The tag written on the first line whose first move is into the field, from a tagged one. -/
def attachTag (tagged : Finset (List Char)) (fieldName : List Char) : List String → List String
  | [] => []
  | line :: uses =>
    if contains line tagCore then line :: uses
    else if ((fieldToFieldMove chars).search line).any (fun way => way.1.1 = fieldName ∧ way.1.2 ∈ tagged) then
      (line ++ byteBufferTag) :: uses
    else line :: attachTag tagged fieldName uses

/-- **`propagate_byte_buffer_tags`**: the fields that are newly tagged, and the use lines after it. -/
def propagateByteBufferTags (usageList : UsageList) (structCCode : String) : Finset (List Char) × UsageList :=
  let tagged := taggedInTheEnd chars usageList structCCode
  let newlyTagged := tagged \ taggedFields usageList
  (newlyTagged,
    { entries := usageList.entries.map fun entry =>
        (entry.1, if entry.1 ∈ newlyTagged then attachTag chars tagged entry.1 entry.2 else entry.2)
      nodup := by
        rw [List.map_map]
        exact usageList.nodup })

/-! ## What is found in a tagged line -/

variable {chars}

/-- The tag's text after its first blank and after both. -/
def inTag (rest : List Char) : Bool := rest == byteBufferTag.toList.drop 1 || rest == byteBufferTag.toList.drop 2

/-- No place in front of the tag counts as one inside it. -/
theorem beyond_tag : Beyond byteBufferTag.toList inTag := by
  intro rest
  have hne : ∀ k < byteBufferTag.toList.length, 0 < k →
      (rest ++ byteBufferTag.toList == byteBufferTag.toList.drop k) = false := by
    intro k hk hpos
    refine beq_false_of_ne fun heq => ?_
    have hlength := congrArg List.length heq
    rw [List.length_append, List.length_drop] at hlength
    omega
  rw [inTag, hne 1 (by decide) (by decide), hne 2 (by decide) (by decide)]
  rfl

/-- A tag begins with a blank or a bracket. -/
theorem inTag_head {rest : List Char} (h : inTag rest = true) : rest.head? = some ' ' ∨ rest.head? = some '[' := by
  rcases Bool.or_eq_true_iff.mp h with h | h
  · rw [eq_of_beq h]
    exact .inl rfl
  · rw [eq_of_beq h]
    exact .inr rfl

/-- A blank belongs to no word, and a bracket is no blank. -/
theorem space_blank : chars.space ' ' = true ∧ chars.space '[' = false ∧ chars.word ' ' = false := by
  refine ⟨?_, ?_, ?_⟩
  · rw [chars.space_ascii _ (by decide)]
    rfl
  · rw [chars.space_ascii _ (by decide)]
    rfl
  · rw [chars.word_ascii _ (by decide)]
    rfl

/-- The blanks of the tag are stepped into. -/
theorem before_spaces : Before byteBufferTag.toList inTag (many chars.space) := by
  obtain ⟨hblank, hbracket, -⟩ := @space_blank chars
  obtain ⟨core, hcore⟩ : ∃ core, byteBufferTag.toList = ' ' :: ' ' :: '[' :: core := ⟨_, rfl⟩
  have hstop : ∀ before, many.go chars.space before ('[' :: core) = [([], ⟨before, '[' :: core⟩)] := by
    intro before
    rw [many.go, if_neg (by rw [hbracket]; exact Bool.false_ne_true)]
  have hstep : ∀ before rest, many.go chars.space before (' ' :: rest) =
      (many.go chars.space (some ' ') rest).map (fun way => (' ' :: way.1, way.2)) ++ [([], ⟨before, ' ' :: rest⟩)] := by
    intro before rest
    rw [many.go, if_pos hblank]
  have hone : inTag (' ' :: '[' :: core) = true ∧ inTag ('[' :: core) = true := by
    rw [inTag, inTag, hcore]
    refine ⟨Bool.or_eq_true_iff.mpr (.inl ?_), Bool.or_eq_true_iff.mpr (.inr ?_)⟩
    · exact beq_self_eq_true (' ' :: '[' :: core)
    · exact beq_self_eq_true ('[' :: core)
  have hall : inTag (' ' :: ' ' :: '[' :: core) = false := hcore ▸ beyond_tag []
  refine .many beyond_tag (fun before => ?_) ?_
  · rw [hcore, hstep, hstep, hstop]
    simp [hone.1, hone.2, hall]
  · rintro ⟨before, rest⟩ hrest way hway
    change way ∈ many.go chars.space before rest at hway
    rcases Bool.or_eq_true_iff.mp hrest with h | h
    · rw [show rest = _ from eq_of_beq h, hcore, List.drop_succ_cons, List.drop_zero, hstep, hstop] at hway
      rcases List.mem_append.mp hway with hway | hway
      · obtain ⟨inner, hinner, rfl⟩ := List.mem_map.mp hway
        rw [List.mem_singleton.mp hinner]
        exact hone.2
      · rw [List.mem_singleton.mp hway]
        exact hone.1
    · rw [show rest = _ from eq_of_beq h, hcore, List.drop_succ_cons, List.drop_succ_cons, List.drop_zero, hstop] at hway
      rw [List.mem_singleton.mp hway]
      exact hone.2

/-- A name keeps its ways in front of the tag and has none from inside it. -/
theorem stops_cName : Stops byteBufferTag.toList inTag (cName chars) := by
  obtain ⟨-, -, hword⟩ := @space_blank chars
  refine .bind (.one (by decide) fun rest h => ?_) fun c => .bind (.many hword) fun cs => .pure _
  rcases inTag_head h with h | h <;> rw [h] <;> rfl

/-- A sign does so too, if it has no blank in it and does not begin with a bracket. -/
theorem stops_sign {c : Char} {text : List Char} (htext : ' ' ∉ c :: text) (hc : c ≠ '[') :
    Stops byteBufferTag.toList inTag (Pattern.chars (c :: text)) := by
  refine .chars (fun d hd heq => htext ?_) fun rest h heq => ?_
  · obtain rfl : ' ' = d := Option.some.inj heq
    exact hd
  · rcases inTag_head h with h | h
    · obtain rfl : ' ' = c := Option.some.inj (h.symm.trans heq)
      exact htext List.mem_cons_self
    · exact hc (Option.some.inj (heq.symm.trans h))

/-- An access to a field does so too. -/
theorem stops_fieldAccess : Stops byteBufferTag.toList inTag (fieldAccess chars) := by
  have hsign : Stops byteBufferTag.toList inTag (orElse (lit "->") (lit ".")) :=
    .orElse (stops_sign (by decide) (by decide)) (stops_sign (by decide) (by decide))
  -- a separator may step into the tag; the name behind it may not
  have hseparator : Before byteBufferTag.toList inTag (fieldSeparator chars) :=
    before_spaces.bind fun _ => (hsign.before beyond_tag).bind fun _ => before_spaces.bind fun _ =>
      (KeepsTail.pure _).before beyond_tag fun cursor hcursor way hway => by
        rw [List.mem_singleton.mp hway]
        exact hcursor
  have hlink : Stops byteBufferTag.toList inTag (do fieldSeparator chars; let _ ← cName chars) :=
    hseparator.bind_stops fun _ => stops_cName.bind fun _ => .pure _
  exact stops_cName.bind fun _ => ((hlink.star beyond_tag).bind_stops fun _ =>
    hseparator.bind_stops fun _ => stops_cName).keeps

/-- So a move from field to field is found as before when a tag is set behind the line. -/
theorem keeps_fieldToFieldMove : KeepsTail byteBufferTag.toList (fieldToFieldMove chars) := by
  have hequal : Stops byteBufferTag.toList inTag (lit "=") := stops_sign (by decide) (by decide)
  have hlook : KeepsTail byteBufferTag.toList (notBefore continuesName) := by
    intro before rest
    have hsame : continuesName (rest ++ byteBufferTag.toList) = continuesName rest := by
      rcases rest with _ | ⟨c, _ | ⟨d, rest⟩⟩ <;> rfl
    rw [notBefore, notBefore, hsame]
    split <;> rfl
  refine (stops_fieldAccess.bind fun lhs => (before_spaces.bind_stops fun _ => hequal.bind fun _ =>
    (before_spaces.bind_stops fun _ => stops_fieldAccess.bind fun rhs => ?_).keeps).keeps).keeps
  exact hlook.bind fun _ => .pure _

/-- A move has an equals sign. -/
theorem equals_of_fieldToFieldMove {cursor : Cursor} (h : fieldToFieldMove chars cursor ≠ []) : '=' ∈ cursor.rest := by
  have hname : Advances (cName chars) := .bind (.one _) fun _ => .bind (.many _) fun _ => .pure _
  have hseparator : Advances (fieldSeparator chars) :=
    .bind (.many _) fun _ => .bind (.orElse (.chars _) (.chars _)) fun _ => .bind (.many _) fun _ => .pure _
  have haccess : Advances (fieldAccess chars) :=
    .bind hname fun _ => .bind (.star (.bind hseparator fun _ => .bind hname fun _ => .pure _)) fun _ =>
      .bind hseparator fun _ => hname
  obtain ⟨way, hway⟩ := List.exists_mem_of_ne_nil _ h
  obtain ⟨lhs, hlhs, hway⟩ := mem_bind.mp hway
  obtain ⟨blanks, hblanks, hway⟩ := mem_bind.mp hway
  obtain ⟨sign, hsign, -⟩ := mem_bind.mp hway
  obtain ⟨rest, hrest⟩ := prefix_of_chars (List.ne_nil_of_mem hsign)
  have hsuffix := (Advances.many _ lhs.2 blanks hblanks).trans (haccess cursor lhs hlhs)
  refine hsuffix.subset ?_
  rw [hrest]
  exact List.mem_append_left _ (by decide)

/-- **A tagged line has the moves that it had.** -/
theorem findAll_tagged (line : String) : (fieldToFieldMove chars).findAll (line ++ byteBufferTag).toList =
    (fieldToFieldMove chars).findAll line.toList := by
  rw [String.toList_append]
  refine findAll_tail keeps_fieldToFieldMove (fun before rest hsuffix => ?_) line.toList
  by_contra hne
  exact absurd (hsuffix.subset (equals_of_fieldToFieldMove hne)) (by decide)

/-! ## What is tagged -/

variable (chars) (usageList : UsageList) (structCCode : String)

/-- **A move into a `char *` field** from another one of the struct, in a use line of some field. -/
def MovesInto (v u : List Char) : Prop :=
  (∃ entry ∈ usageList.entries, ∃ line ∈ entry.2, (v, u) ∈ (fieldToFieldMove chars).findAll line.toList) ∧
    v ≠ u ∧ v ∈ usageList.keys ∧ u ∈ usageList.keys ∧ isCharStarField chars structCCode v = true

/-- **A move that is found in the use lines of either field.** -/
def MovesUnder (v u : List Char) : Prop :=
  MovesInto chars usageList structCCode v u ∧ ∃ entry ∈ usageList.entries, (entry.1 = v ∨ entry.1 = u) ∧
    ∃ line ∈ entry.2, (v, u) ∈ (fieldToFieldMove chars).findAll line.toList

/-- The fields that a relation leads to from the fields with a tagged line. -/
def TagSpreads (moves : List Char → List Char → Prop) (v : List Char) : Prop :=
  ∃ u ∈ taggedFields usageList, ReflTransGen (fun u v => moves v u) u v

/-- The sets of fields with the tagged ones that are closed under moves. -/
def ClosedTags (moves : List Char → List Char → Prop) : Set (Set (List Char)) :=
  {fields | ↑(taggedFields usageList) ⊆ fields ∧ ∀ u v, moves v u → u ∈ fields → v ∈ fields}

/-- **The tags are spread right**: to the least set that has the tagged fields and is closed under the moves found under
either field; every field that is newly tagged has a tagged line of its own; and a second call tags nothing. -/
structure SpreadsTags : Prop where
  least : IsLeast (ClosedTags usageList (MovesUnder chars usageList structCCode))
    ↑(taggedFields usageList ∪ (propagateByteBufferTags chars usageList structCCode).1)
  written : ∀ v ∈ (propagateByteBufferTags chars usageList structCCode).1,
    ∃ entry ∈ (propagateByteBufferTags chars usageList structCCode).2.entries, entry.1 = v ∧
      ∃ line ∈ entry.2, contains line tagCore = true
  again : (propagateByteBufferTags chars (propagateByteBufferTags chars usageList structCCode).2 structCCode).1 = ∅

/-- **A line for the tag**: the first move in one of the field's own lines is into the field, from a field that the tag
spreads to. -/
def HasLineForTag (v : List Char) : Prop :=
  ∃ entry ∈ usageList.entries, entry.1 = v ∧ ∃ line ∈ entry.2, ∃ way,
    (fieldToFieldMove chars).search line = some way ∧ way.1.1 = v ∧
      TagSpreads usageList (MovesInto chars usageList structCCode) way.1.2

variable {chars usageList structCCode}

/-- Tags go along the moves, from the field that is read to the one that is written. -/
theorem mem_tagEdges {u v : List Char} :
    (u, v) ∈ tagEdges chars usageList structCCode ↔ MovesInto chars usageList structCCode v u := by
  rw [tagEdges, List.mem_map]
  constructor
  · rintro ⟨⟨a, b⟩, hin, heq⟩
    obtain ⟨rfl, rfl⟩ := Prod.mk.inj heq
    obtain ⟨hin, hchar⟩ := List.mem_filter.mp hin
    obtain ⟨entry, hentry, hin⟩ := List.mem_flatMap.mp hin
    obtain ⟨line, hline, hin⟩ := List.mem_flatMap.mp hin
    obtain ⟨hmove, hfields⟩ := List.mem_filter.mp hin
    obtain ⟨hne, hv, hu⟩ := of_decide_eq_true hfields
    exact ⟨⟨entry, hentry, line, hline, hmove⟩, hne, hv, hu, hchar⟩
  · rintro ⟨⟨entry, hentry, line, hline, hmove⟩, hne, hv, hu, hchar⟩
    refine ⟨(v, u), List.mem_filter.mpr ⟨List.mem_flatMap.mpr ⟨entry, hentry, List.mem_flatMap.mpr ⟨line, hline, ?_⟩⟩,
      hchar⟩, rfl⟩
    exact List.mem_filter.mpr ⟨hmove, decide_eq_true ⟨hne, hv, hu⟩⟩

/-- The tagged fields are those with a tagged line. -/
theorem mem_taggedFields {v : List Char} : v ∈ taggedFields usageList ↔
    ∃ entry ∈ usageList.entries, entry.1 = v ∧ ∃ line ∈ entry.2, contains line tagCore = true := by
  rw [taggedFields, List.mem_toFinset, List.mem_map]
  constructor
  · rintro ⟨entry, hin, rfl⟩
    obtain ⟨hentry, hany⟩ := List.mem_filter.mp hin
    exact ⟨entry, hentry, rfl, List.any_eq_true.mp hany⟩
  · rintro ⟨entry, hentry, rfl, hline⟩
    exact ⟨entry, List.mem_filter.mpr ⟨hentry, List.any_eq_true.mpr hline⟩, rfl⟩

/-- **What is tagged in the end is what the tag spreads to.** -/
theorem mem_taggedInTheEnd {v : List Char} : v ∈ taggedInTheEnd chars usageList structCCode ↔
    TagSpreads usageList (MovesInto chars usageList structCCode) v := by
  have hedge : EdgeOf (tagEdges chars usageList structCCode) =
      fun u v => MovesInto chars usageList structCCode v u :=
    funext fun u => funext fun v => propext mem_tagEdges
  constructor
  · intro h
    obtain ⟨u, hu, hreach⟩ := reaches_of_mem_sweeps h
    rw [hedge] at hreach
    exact ⟨u, hu, hreach⟩
  · rintro ⟨u, hu, hreach⟩
    rw [← hedge] at hreach
    refine mem_of_reaches ?_ (subset_sweeps _ _ _ hu) hreach
    -- there are no more fields than sweeps
    have hkeys : usageList.keys.toFinset.card ≤ usageList.entries.length := by
      refine (List.toFinset_card_le _).trans ?_
      rw [Dict.keys, List.length_map]
    refine @sweep_sweeps_subset _ _ _ _ _ usageList.keys.toFinset (fun w hw => ?_) (fun w x hwx => ?_) (by omega)
    · obtain ⟨entry, hentry, rfl, -⟩ := mem_taggedFields.mp hw
      exact List.mem_toFinset.mpr (List.mem_map_of_mem hentry)
    · obtain ⟨-, -, hx, -⟩ := mem_tagEdges.mp hwx
      exact List.mem_toFinset.mpr hx

/-- What is newly tagged is what the tags spread to, without what had one. -/
theorem mem_newlyTagged {v : List Char} : v ∈ (propagateByteBufferTags chars usageList structCCode).1 ↔
    TagSpreads usageList (MovesInto chars usageList structCCode) v ∧ v ∉ taggedFields usageList :=
  Finset.mem_sdiff.trans (and_congr_left fun _ => mem_taggedInTheEnd)

/-- The tag is written if there is a line for it. -/
theorem contains_attachTag {tagged : Finset (List Char)} {v : List Char} : ∀ {uses : List String},
    (∀ line ∈ uses, contains line tagCore = false) →
      ((∃ line ∈ attachTag chars tagged v uses, contains line tagCore = true) ↔
        ∃ line ∈ uses, ∃ way, (fieldToFieldMove chars).search line = some way ∧ way.1.1 = v ∧ way.1.2 ∈ tagged)
  | [], _ => ⟨fun ⟨_, h, _⟩ => absurd h List.not_mem_nil, fun ⟨_, h, _⟩ => absurd h List.not_mem_nil⟩
  | line :: uses, hnone => by
    have hfirst := hnone line List.mem_cons_self
    have ih : (∃ line ∈ attachTag chars tagged v uses, contains line tagCore = true) ↔
        ∃ line ∈ uses, ∃ way, (fieldToFieldMove chars).search line = some way ∧ way.1.1 = v ∧ way.1.2 ∈ tagged :=
      contains_attachTag fun l hl => hnone l (List.mem_cons_of_mem line hl)
    rw [attachTag, if_neg (by rw [hfirst]; exact Bool.false_ne_true)]
    split
    · rename_i hany
      obtain ⟨way, hway, hinto⟩ := (Option.any_eq_true _ _).mp hany
      obtain ⟨hv, hu⟩ := of_decide_eq_true hinto
      refine ⟨fun _ => ⟨line, List.mem_cons_self, way, hway, hv, hu⟩, fun _ => ⟨_, List.mem_cons_self, ?_⟩⟩
      refine decide_eq_true ?_
      rw [String.toList_append]
      exact ⟨line.toList ++ [' ', ' '], [], by rw [List.append_nil, List.append_assoc]; rfl⟩
    · rename_i hany
      rw [List.exists_mem_cons_iff, List.exists_mem_cons_iff, ih]
      refine or_congr ⟨fun h => ?_, fun ⟨way, hway, hv, hu⟩ => absurd ?_ hany⟩ Iff.rfl
      · rw [hfirst] at h
        cases h
      · exact (Option.any_eq_true _ _).mpr ⟨way, hway, decide_eq_true ⟨hv, hu⟩⟩

/-- The lines after the call are the lines before it, with and without a tag. -/
theorem mem_attachTag {tagged : Finset (List Char)} {v : List Char} {line : String} : ∀ {uses : List String},
    line ∈ attachTag chars tagged v uses → ∃ line' ∈ uses, line = line' ∨ line = line' ++ byteBufferTag
  | use :: uses, h => by
    rw [attachTag] at h
    split at h
    · exact ⟨line, h, .inl rfl⟩
    · split at h
      · rcases List.mem_cons.mp h with rfl | h
        · exact ⟨use, List.mem_cons_self, .inr rfl⟩
        · exact ⟨line, List.mem_cons_of_mem use h, .inl rfl⟩
      · rcases List.mem_cons.mp h with rfl | h
        · exact ⟨line, List.mem_cons_self, .inl rfl⟩
        · obtain ⟨line', hline', heq⟩ := mem_attachTag h
          exact ⟨line', List.mem_cons_of_mem use hline', heq⟩

/-! ## The call -/

/-- The entries after the call. -/
theorem mem_entries_after {entry : List Char × List String} :
    entry ∈ (propagateByteBufferTags chars usageList structCCode).2.entries ↔
      ∃ uses, (entry.1, uses) ∈ usageList.entries ∧
        entry.2 = if entry.1 ∈ (propagateByteBufferTags chars usageList structCCode).1 then
          attachTag chars (taggedInTheEnd chars usageList structCCode) entry.1 uses else uses := by
  constructor
  · intro h
    obtain ⟨⟨v, uses⟩, hin, rfl⟩ := List.mem_map.mp h
    exact ⟨uses, hin, rfl⟩
  · rintro ⟨uses, hin, heq⟩
    refine List.mem_map.mpr ⟨(entry.1, uses), hin, ?_⟩
    exact Prod.ext rfl heq.symm

/-- Writing tags leaves the fields. -/
theorem keys_after : (propagateByteBufferTags chars usageList structCCode).2.keys = usageList.keys := by
  show (usageList.entries.map _).map Prod.fst = usageList.entries.map Prod.fst
  rw [List.map_map]
  rfl

/-- A field that is newly tagged has a tagged line if and only if it has a line for the tag. -/
theorem written_iff {v : List Char} (h : v ∈ (propagateByteBufferTags chars usageList structCCode).1) :
    (∃ entry ∈ (propagateByteBufferTags chars usageList structCCode).2.entries, entry.1 = v ∧
      ∃ line ∈ entry.2, contains line tagCore = true) ↔ HasLineForTag chars usageList structCCode v := by
  obtain ⟨-, huntagged⟩ := mem_newlyTagged.mp h
  have hnone : ∀ uses, (v, uses) ∈ usageList.entries → ∀ line ∈ uses, contains line tagCore = false := by
    intro uses hin line hline
    refine Bool.eq_false_iff.mpr fun hcontains => huntagged ?_
    exact mem_taggedFields.mpr ⟨(v, uses), hin, rfl, line, hline, hcontains⟩
  constructor
  · rintro ⟨⟨w, lines⟩, hentry, rfl, hline⟩
    obtain ⟨uses, hin, heq⟩ := mem_entries_after.mp hentry
    rw [if_pos h] at heq
    rw [heq] at hline
    obtain ⟨line, hline, way, hway, hv, hu⟩ := (contains_attachTag (hnone uses hin)).mp hline
    exact ⟨(w, uses), hin, rfl, line, hline, way, hway, hv, mem_taggedInTheEnd.mp hu⟩
  · rintro ⟨⟨w, uses⟩, hin, rfl, line, hline, way, hway, hv, hu⟩
    refine ⟨(w, attachTag chars (taggedInTheEnd chars usageList structCCode) w uses),
      mem_entries_after.mpr ⟨uses, hin, (if_pos h).symm⟩, rfl, ?_⟩
    exact (contains_attachTag (hnone uses hin)).mpr ⟨line, hline, way, hway, hv, mem_taggedInTheEnd.mpr hu⟩

/-- The moves after the call are those before it. -/
theorem movesInto_after {u v : List Char}
    (h : MovesInto chars (propagateByteBufferTags chars usageList structCCode).2 structCCode v u) :
    MovesInto chars usageList structCCode v u := by
  obtain ⟨⟨entry, hentry, line, hline, hmove⟩, hne, hv, hu, hchar⟩ := h
  rw [keys_after] at hv hu
  refine ⟨?_, hne, hv, hu, hchar⟩
  obtain ⟨uses, hin, heq⟩ := mem_entries_after.mp hentry
  rw [heq] at hline
  split at hline
  · obtain ⟨line', hline', rfl | rfl⟩ := mem_attachTag hline
    · exact ⟨_, hin, line, hline', hmove⟩
    · rw [findAll_tagged] at hmove
      exact ⟨_, hin, line', hline', hmove⟩
  · exact ⟨_, hin, line, hline, hmove⟩

/-- A field that has a tagged line keeps it. -/
theorem taggedFields_after {v : List Char} (h : v ∈ taggedFields usageList) :
    v ∈ taggedFields (propagateByteBufferTags chars usageList structCCode).2 := by
  obtain ⟨⟨w, uses⟩, hin, rfl, hline⟩ := mem_taggedFields.mp h
  have hold : w ∉ (propagateByteBufferTags chars usageList structCCode).1 := fun hnew => (mem_newlyTagged.mp hnew).2 h
  exact mem_taggedFields.mpr ⟨(w, uses), mem_entries_after.mpr ⟨uses, hin, (if_neg hold).symm⟩, rfl, hline⟩

/-- Only what the tag spreads to has a tagged line after the call. -/
theorem tagSpreads_after {v : List Char} (h :
    v ∈ taggedFields (propagateByteBufferTags chars usageList structCCode).2) :
    TagSpreads usageList (MovesInto chars usageList structCCode) v := by
  obtain ⟨⟨w, lines⟩, hentry, rfl, hline⟩ := mem_taggedFields.mp h
  obtain ⟨uses, hin, heq⟩ := mem_entries_after.mp hentry
  dsimp only at heq
  split at heq
  · rename_i hnew
    exact (mem_newlyTagged.mp hnew).1
  · rw [heq] at hline
    exact ⟨w, mem_taggedFields.mpr ⟨(w, uses), hin, rfl, hline⟩, .refl⟩

/-- What the tag spreads to is the least closed set. -/
theorem isLeast_tagSpreads (moves : List Char → List Char → Prop) :
    IsLeast (ClosedTags usageList moves) {v | TagSpreads usageList moves v} := by
  refine ⟨⟨fun v hv => ⟨v, hv, .refl⟩, fun u v huv ⟨w, hw, hreach⟩ => ⟨w, hw, hreach.tail huv⟩⟩, ?_⟩
  rintro fields ⟨htagged, hclosed⟩ v ⟨u, hu, hreach⟩
  induction hreach with
  | refl => exact htagged hu
  | tail _ huv ih => exact hclosed _ _ huv ih

/-- The tagged fields, old and new, are what the tags spread to. -/
theorem tagged_union_newly : (↑(taggedFields usageList ∪ (propagateByteBufferTags chars usageList structCCode).1) :
    Set (List Char)) = {v | TagSpreads usageList (MovesInto chars usageList structCCode) v} := by
  refine Set.ext fun v => ?_
  rw [Finset.mem_coe, Finset.mem_union, mem_newlyTagged]
  constructor
  · rintro (h | ⟨h, -⟩)
    · exact ⟨v, h, .refl⟩
    · exact h
  · intro h
    by_cases hin : v ∈ taggedFields usageList
    · exact .inl hin
    · exact .inr ⟨h, hin⟩

/-- **Tags are spread right exactly if every field that they spread to, along the moves in all use lines, is reached by
moves found under one of their two fields, and has a line of its own for the tag.** -/
theorem propagateByteBufferTags_iff (chars : CharClass) (usageList : UsageList) (structCCode : String) :
    SpreadsTags chars usageList structCCode ↔
      ∀ v, v ∉ taggedFields usageList → TagSpreads usageList (MovesInto chars usageList structCCode) v →
        TagSpreads usageList (MovesUnder chars usageList structCCode) v ∧
          HasLineForTag chars usageList structCCode v := by
  constructor
  · intro h v huntagged hspreads
    have hnew : v ∈ (propagateByteBufferTags chars usageList structCCode).1 :=
      mem_newlyTagged.mpr ⟨hspreads, huntagged⟩
    refine ⟨?_, (written_iff hnew).mp (h.written v hnew)⟩
    refine h.least.2 (isLeast_tagSpreads (MovesUnder chars usageList structCCode)).1 ?_
    rw [tagged_union_newly]
    exact hspreads
  · intro h
    have hwritten : ∀ v ∈ (propagateByteBufferTags chars usageList structCCode).1,
        HasLineForTag chars usageList structCCode v := by
      intro v hnew
      obtain ⟨hspreads, huntagged⟩ := mem_newlyTagged.mp hnew
      exact (h v huntagged hspreads).2
    refine ⟨?_, fun v hnew => (written_iff hnew).mpr (hwritten v hnew), ?_⟩
    · have hsame : {v | TagSpreads usageList (MovesInto chars usageList structCCode) v} =
          {v | TagSpreads usageList (MovesUnder chars usageList structCCode) v} := by
        refine Set.ext fun v => ⟨fun hspreads => ?_, fun ⟨u, hu, hreach⟩ => ⟨u, hu, ?_⟩⟩
        · by_cases hin : v ∈ taggedFields usageList
          · exact ⟨v, hin, .refl⟩
          · exact (h v hin hspreads).1
        · exact hreach.lift id fun _ _ hmove => hmove.1
      rw [tagged_union_newly, hsame]
      exact isLeast_tagSpreads _
    · -- every field that the tags spread to has a tagged line by now
      refine Finset.eq_empty_iff_forall_notMem.mpr fun v hv => ?_
      obtain ⟨⟨u, hu, hreach⟩, huntagged⟩ := mem_newlyTagged.mp hv
      have hspreads : TagSpreads usageList (MovesInto chars usageList structCCode) v := by
        obtain ⟨w, hw, hwu⟩ := tagSpreads_after hu
        have hmoves : ∀ a b, MovesInto chars (propagateByteBufferTags chars usageList structCCode).2 structCCode b a →
            MovesInto chars usageList structCCode b a := fun _ _ hmove => movesInto_after hmove
        exact ⟨w, hw, hwu.trans (hreach.lift id hmoves)⟩
      refine huntagged ?_
      by_cases hin : v ∈ taggedFields usageList
      · exact taggedFields_after hin
      · have hnew := mem_newlyTagged.mpr ⟨hspreads, hin⟩
        exact mem_taggedFields.mpr ((written_iff hnew).mpr (hwritten v hnew))

/-- A move that is listed under the field it moves from. -/
def movedUsage : UsageList := ⟨[(['b'], ["p" ++ byteBufferTag, "x->a = x->b"]), (['a'], [])], by decide⟩

/-- The move of the example, as it is found. -/
theorem findAll_moved : (fieldToFieldMove .ascii).findAll "x->a = x->b".toList = [(['a'], ['b'])] := by decide +kernel

/-- The field of the example is read as a pointer to characters. -/
theorem isCharStarField_moved : isCharStarField .ascii "char *a, *b;" ['a'] = true := by decide +kernel

/-- The other field is tagged. -/
theorem contains_moved : contains ("p" ++ byteBufferTag) tagCore = true := by decide +kernel

/-- The field that gets the tag has no line that could carry it. -/
theorem movedUsage_lines {entry : List Char × List String} (hentry : entry ∈ movedUsage.entries) (h : entry.1 = ['a']) :
    entry.2 = [] := by
  rcases List.mem_pair.mp hentry with rfl | rfl
  · exact absurd h (by decide)
  · rfl

/-- The tag spreads to it. -/
theorem tagSpreads_moved : TagSpreads movedUsage (MovesInto .ascii movedUsage "char *a, *b;") ['a'] := by
  have hfirst : (['b'], ["p" ++ byteBufferTag, "x->a = x->b"]) ∈ movedUsage.entries := List.mem_cons_self
  refine ⟨['b'], ?_, .single ⟨⟨_, hfirst, "x->a = x->b", List.mem_cons_of_mem _ List.mem_cons_self, ?_⟩, by decide,
    by decide, by decide, isCharStarField_moved⟩⟩
  · rw [mem_taggedFields]
    exact ⟨_, hfirst, rfl, _, List.mem_cons_self, contains_moved⟩
  · rw [findAll_moved]
    exact List.mem_singleton_self _

/-- **A field is tagged, but has no line for the tag.** -/
theorem propagateByteBufferTags_moved : ¬ SpreadsTags .ascii movedUsage "char *a, *b;" := by
  rw [propagateByteBufferTags_iff]
  intro h
  refine absurd (h ['a'] ?_ tagSpreads_moved).2 ?_
  · rw [mem_taggedFields]
    rintro ⟨entry, hentry, hfield, line, hline, -⟩
    rw [movedUsage_lines hentry hfield] at hline
    cases hline
  · rintro ⟨entry, hentry, hfield, line, hline, -⟩
    rw [movedUsage_lines hentry hfield] at hline
    cases hline

end Assure
