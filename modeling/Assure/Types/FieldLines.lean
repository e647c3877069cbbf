import Assure.Library.RustText
import Assure.Types.CascadeDelete

/-!
# Fields on lines of their own

The surgical edit removes lines: those that mention a deleted name and end in a comma or a semicolon, a line
comment apart. In an item of which each field that has to go stands on a line of its own, and no other line
looks like one, these lines are the fields (`surgicallyRemoveLines_fields`). An item on one line is left as it
is.

The result is for items that are laid out by lines (`ItemPart.LaidOut`). It includes that the text
stays lexically valid with its braces matched. For other layouts nothing is said.
-/

namespace Assure

open Assure.Library
open Assure.Library.RustToken (textOf textOf_cons textOf_append WellLexed BracesNest)

/-- **A part of an item**: a field on a line of its own, as what is before its type, the type, the mark after it
and blanks or a line comment; or other lines. -/
inductive ItemPart
  | field (start type : List RustToken) (terminator : Char) (trailing : List RustToken)
  | other (tokens : List RustToken)

namespace ItemPart

/-- The tokens of a part. -/
def tokens : ItemPart → List RustToken
  | .field start type terminator trailing => start ++ type ++ .code terminator :: trailing
  | .other tokens => tokens

/-- The text of a part. -/
def text (part : ItemPart) : List Char := textOf part.tokens

variable (chars : CharClass) (names : Finset String)

/-- **A field that has to go**: its type mentions one of the names. -/
def isDeleted : ItemPart → Bool
  | .field _ type _ _ => decide (∃ name ∈ names, mentions chars name (String.ofList (textOf type)) = true)
  | .other _ => false

/-- **A field on a line of its own**; of the names it has none but those of its type. -/
structure FieldLaidOut (start type : List RustToken) (terminator : Char) (trailing : List RustToken) : Prop where
  terminator_mark : terminator = ',' ∨ terminator = ';'
  one_line : '\n' ∉ textOf (start ++ type ++ .code terminator :: trailing)
  no_comment : ¬ ['/', '/'] <:+: textOf (start ++ type) ++ [terminator]
  trailing_comment : ∃ blanks comment, textOf trailing = blanks ++ comment ∧
    (∀ c ∈ blanks, chars.space c = true) ∧ (comment = [] ∨ ['/', '/'] <+: comment)
  type_apart : (textOf start).getLast?.any chars.word = false
  names_in_type : ∀ name ∈ names, mentions chars name (String.ofList (textOf (start ++ type) ++ [terminator])) = true →
    mentions chars name (String.ofList (textOf type)) = true
  braces : BracesNest 0 (start ++ type ++ .code terminator :: trailing)

/-- **How a part is laid out**: of other lines none that mentions a name ends as a field does, a line comment
apart. -/
def LaidOut : ItemPart → Prop
  | .field start type terminator trailing => FieldLaidOut chars names start type terminator trailing
  | .other tokens => ∀ line ∈ (textOf tokens).splitOn '\n',
    (∀ name ∈ names, mentions chars name (String.ofList (withoutComment chars line)) = false) ∨
      ((withoutComment chars line).getLast? ≠ some ';' ∧ (withoutComment chars line).getLast? ≠ some ',')

end ItemPart

/-- The tokens of parts one below the other. -/
def codeTokens : List ItemPart → List RustToken
  | [] => []
  | [part] => part.tokens
  | part :: next :: parts => part.tokens ++ .code '\n' :: codeTokens (next :: parts)

/-- The parts of an item, joined by line breaks. -/
theorem textOf_codeTokens : ∀ parts : List ItemPart,
    textOf (codeTokens parts) = ['\n'].intercalate (parts.map ItemPart.text)
  | [] => rfl
  | [part] => by rw [List.map_cons, List.map_nil, List.intercalate_singleton]; rfl
  | part :: next :: parts => by
    have ih := textOf_codeTokens (next :: parts)
    rw [List.map_cons] at ih
    rw [codeTokens, textOf_append, textOf_cons, ih, List.map_cons, List.map_cons, List.intercalate_cons_cons,
      List.append_assoc]
    rfl

/-! ## One line -/

variable {chars : CharClass} {names : Finset String}

/-- Text without a comment in it is before every comment. -/
theorem beforeLineComment_text {rest : List Char} : ∀ {text : List Char}, ¬ ['/', '/'] <:+: text →
    text.getLast? ≠ some '/' → beforeLineComment (text ++ rest) = text ++ beforeLineComment rest
  | [], _, _ => rfl
  | [c], _, hlast => by
    rw [List.singleton_append, beforeLineComment, if_neg fun h => hlast (congrArg some h.1)]
    rfl
  | c :: d :: text, h, hlast => by
    have hrest : ¬ ['/', '/'] <:+: d :: text := fun hin => h (hin.trans (List.suffix_cons c _).isInfix)
    rw [List.cons_append, beforeLineComment, if_neg]
    · rw [beforeLineComment_text hrest (by simpa using hlast)]
      rfl
    · rintro ⟨rfl, hd⟩
      obtain rfl := Option.some.inj hd
      exact h ⟨[], text, rfl⟩

/-- Blanks at the end of a line are stripped, and what stands before them stays. -/
theorem rstrip_text {text spaces : List Char} (hspaces : ∀ c ∈ spaces, chars.space c = true) {c : Char}
    (hlast : text.getLast? = some c) (hc : chars.space c = false) : rstrip chars (text ++ spaces) = text := by
  obtain ⟨front, rfl⟩ := List.getLast?_eq_some_iff.mp hlast
  rw [rstrip, List.reverse_append, List.dropWhile_append_of_pos fun d hd => hspaces d (List.mem_reverse.mp hd),
    List.reverse_append, List.reverse_singleton, List.singleton_append, List.dropWhile_cons_of_neg (by simp [hc]),
    List.reverse_cons, List.reverse_reverse]

namespace ItemPart

variable {start type trailing : List RustToken} {terminator : Char}

/-- What a field line holds before its comment is the declaration. -/
theorem FieldLaidOut.withoutComment (h : FieldLaidOut chars names start type terminator trailing) :
    Assure.withoutComment chars (textOf (start ++ type ++ .code terminator :: trailing)) =
      textOf (start ++ type) ++ [terminator] := by
  obtain ⟨blanks, comment, htrailing, hblanks, hcomment⟩ := h.trailing_comment
  have hslash : chars.space '/' = false := chars.space_ascii '/' (by decide)
  have hterminator : terminator ≠ '/' ∧ chars.space terminator = false := by
    rcases h.terminator_mark with rfl | rfl <;> exact ⟨by decide, chars.space_ascii _ (by decide)⟩
  have hline : textOf (start ++ type ++ .code terminator :: trailing) =
      (textOf (start ++ type) ++ [terminator]) ++ (blanks ++ comment) := by
    rw [textOf_append, textOf_cons, htrailing]
    simp [RustToken.text]
  have hnoslash : '/' ∉ blanks := fun hmem => by
    rw [hblanks _ hmem] at hslash
    cases hslash
  have hafter : beforeLineComment (blanks ++ comment) = blanks := by
    have hcut : beforeLineComment comment = [] := by
      rcases hcomment with rfl | ⟨rest, rfl⟩ <;> rfl
    rw [beforeLineComment_text, hcut, List.append_nil]
    · exact fun hin => hnoslash (hin.subset (by simp))
    · exact fun hlast => hnoslash (List.mem_of_getLast? hlast)
  rw [Assure.withoutComment, hline, beforeLineComment_text h.no_comment (by simp [hterminator.1]), hafter,
    rstrip_text hblanks (by simp) hterminator.2]

/-- **A field line is removable if the field has to go.** -/
theorem FieldLaidOut.isRemovable (h : FieldLaidOut chars names start type terminator trailing) :
    Assure.isRemovable chars names (textOf (start ++ type ++ .code terminator :: trailing)) =
      (field start type terminator trailing).isDeleted chars names := by
  have hmark : ((textOf (start ++ type) ++ [terminator]).getLast? == some ';' ||
      (textOf (start ++ type) ++ [terminator]).getLast? == some ',') = true := by
    rw [List.getLast?_concat]
    rcases h.terminator_mark with rfl | rfl <;> rfl
  rw [Assure.isRemovable, h.withoutComment, hmark, Bool.and_true, isDeleted]
  refine decide_eq_decide.mpr ⟨?_, ?_⟩
  · rintro ⟨name, hname, hfound⟩
    exact ⟨name, hname, h.names_in_type name hname hfound⟩
  · rintro ⟨name, hname, hfound⟩
    refine ⟨name, hname, ?_⟩
    have hback : ([terminator]).head?.any chars.word = false := by
      rcases h.terminator_mark with rfl | rfl <;> exact chars.word_ascii _ (by decide)
    have hdeclaration := (Pattern.Extends.wholeWord name).found h.type_apart hback hfound
    rwa [← List.append_assoc, ← textOf_append] at hdeclaration

/-- A field that is laid out is one line. -/
theorem FieldLaidOut.splitOn (h : FieldLaidOut chars names start type terminator trailing) :
    (textOf (start ++ type ++ .code terminator :: trailing)).splitOn '\n' =
      [textOf (start ++ type ++ .code terminator :: trailing)] := by
  have hsplit : (['\n'].intercalate [textOf (start ++ type ++ .code terminator :: trailing)]).splitOn '\n' =
      [textOf (start ++ type ++ .code terminator :: trailing)] :=
    List.splitOn_intercalate '\n' (by simpa using h.one_line) (List.cons_ne_nil _ _)
  rwa [List.intercalate_singleton] at hsplit

/-- **Of a part that is laid out** all lines are removable, or none is. -/
theorem LaidOut.isRemovable {part : ItemPart} (h : part.LaidOut chars names) :
    ∀ line ∈ part.text.splitOn '\n', Assure.isRemovable chars names line = part.isDeleted chars names := by
  cases part with
  | field start type terminator trailing =>
    intro line hline
    have hline : line ∈ (textOf (start ++ type ++ .code terminator :: trailing)).splitOn '\n' := hline
    rw [FieldLaidOut.splitOn h, List.mem_singleton] at hline
    rw [hline]
    exact FieldLaidOut.isRemovable h
  | other tokens =>
    intro line hline
    show Assure.isRemovable chars names line = false
    rw [Assure.isRemovable, Bool.and_eq_false_iff]
    rcases h line hline with hnone | ⟨hsemicolon, hcomma⟩
    · left
      rw [decide_eq_false_iff_not]
      rintro ⟨name, hname, hfound⟩
      rw [hnone name hname] at hfound
      cases hfound
    · right
      rw [Bool.or_eq_false_iff]
      exact ⟨beq_eq_false_iff_ne.mpr hsemicolon, beq_eq_false_iff_ne.mpr hcomma⟩

end ItemPart

/-! ## The braces -/

/-- The item is well lexed exactly if each part is, since line breaks separate tokens. -/
theorem wellLexed_codeTokens : ∀ {parts : List ItemPart}, WellLexed chars (codeTokens parts) ↔
    ∀ part ∈ parts, WellLexed chars part.tokens
  | [] => by simp [codeTokens, WellLexed]
  | [part] => by simp [codeTokens]
  | part :: next :: parts => by
    rw [codeTokens, List.forall_mem_cons, ← wellLexed_codeTokens]
    exact ⟨fun h => h.of_append_line, fun h => h.2.append_line h.1⟩

/-- A line break among tokens matches no brace. -/
theorem balanced_line {tokens' : List RustToken} : ∀ {tokens : List RustToken} {depth : Int}, 0 ≤ depth →
    (BracesNest depth (tokens ++ .code '\n' :: tokens') ↔ BracesNest depth (tokens ++ tokens'))
  | [], depth, hdepth => by
    have hzero : RustToken.braces (.code '\n') = 0 := rfl
    rw [List.nil_append, List.nil_append, BracesNest, hzero, Int.add_zero]
    exact and_iff_right hdepth
  | token :: tokens, depth, _ => by
    rw [List.cons_append, List.cons_append, BracesNest, BracesNest]
    exact and_congr_right fun hpos => balanced_line hpos

/-- What is set behind some tokens may be replaced by what nests in the same way. -/
theorem balanced_append_congr {tokens' tokens'' : List RustToken} (h : ∀ depth : Int, 0 ≤ depth →
    (BracesNest depth tokens' ↔ BracesNest depth tokens'')) : ∀ {tokens : List RustToken} {depth : Int}, 0 ≤ depth →
      (BracesNest depth (tokens ++ tokens') ↔ BracesNest depth (tokens ++ tokens''))
  | [], depth, hdepth => h depth hdepth
  | token :: tokens, depth, _ => by
    rw [List.cons_append, List.cons_append, BracesNest, BracesNest]
    exact and_congr_right fun hpos => balanced_append_congr h hpos

/-- Line breaks do not matter to the nesting of braces. -/
theorem balanced_codeTokens : ∀ {parts : List ItemPart} {depth : Int}, 0 ≤ depth →
    (BracesNest depth (codeTokens parts) ↔ BracesNest depth (parts.flatMap ItemPart.tokens))
  | [], _, _ => Iff.rfl
  | [part], _, _ => by rw [List.flatMap_cons, List.flatMap_nil, List.append_nil]; rfl
  | part :: next :: parts, depth, hdepth => by
    rw [codeTokens, balanced_line hdepth, List.flatMap_cons]
    exact balanced_append_congr (fun _ => balanced_codeTokens) hdepth

/-- **Without parts whose own braces are matched** the others match as before. -/
theorem balanced_filter {dropped : ItemPart → Bool} : ∀ {parts : List ItemPart},
    (∀ part ∈ parts, dropped part = true → BracesNest 0 part.tokens) → ∀ {depth : Int}, 0 ≤ depth →
      (BracesNest depth ((parts.filter fun part => !dropped part).flatMap ItemPart.tokens) ↔
        BracesNest depth (parts.flatMap ItemPart.tokens))
  | [], _, _, _ => Iff.rfl
  | part :: parts, h, depth, hdepth => by
    have ih : ∀ depth : Int, 0 ≤ depth →
        (BracesNest depth ((parts.filter fun part => !dropped part).flatMap ItemPart.tokens) ↔
          BracesNest depth (parts.flatMap ItemPart.tokens)) := fun _ =>
      balanced_filter fun p hp => h p (List.mem_cons_of_mem part hp)
    rw [List.flatMap_cons]
    cases hdrop : dropped part with
    | true =>
      have hpart : BracesNest (depth + 0) (part.tokens ++ parts.flatMap ItemPart.tokens) ↔
          BracesNest depth (parts.flatMap ItemPart.tokens) := (h part List.mem_cons_self hdrop).append_iff hdepth
      rw [Int.add_zero] at hpart
      rw [List.filter_cons_of_neg (by simp [hdrop]), hpart]
      exact ih depth hdepth
    | false =>
      rw [List.filter_cons_of_pos (by simp [hdrop]), List.flatMap_cons]
      exact balanced_append_congr ih hdepth

/-! ## The edit -/

/-- A part that has to go is one line. -/
theorem ItemPart.LaidOut.splitOn {part : ItemPart} (h : part.LaidOut chars names)
    (hdeleted : part.isDeleted chars names = true) : part.text.splitOn '\n' = [part.text] := by
  cases part with
  | field => exact FieldLaidOut.splitOn h
  | other => cases hdeleted

/-- On an item that is laid out by lines exactly the parts that should go are removed, and they are
reported. -/
theorem surgicallyRemoveLines_codeTokens {parts : List ItemPart} (h : ∀ part ∈ parts, part.LaidOut chars names) :
    surgicallyRemoveLines chars (String.ofList (textOf (codeTokens parts))) names =
      (String.ofList (textOf (codeTokens (parts.filter fun part => !part.isDeleted chars names))),
        (parts.filter fun part => part.isDeleted chars names).map ItemPart.text) := by
  have hlines : ∀ part ∈ parts, ∀ line ∈ part.text.splitOn '\n',
      isRemovable chars names line = part.isDeleted chars names := fun part hpart => (h part hpart).isRemovable
  by_cases hnames : names = ∅
  · have hnone : ∀ part : ItemPart, part.isDeleted chars names = false := by
      intro part
      cases part with
      | field => simp [ItemPart.isDeleted, hnames]
      | other => rfl
    rw [surgicallyRemoveLines, if_pos hnames]
    simp [hnone]
  by_cases hparts : parts = []
  · subst hparts
    have hline : ([] : List Char).splitOn '\n' = [[]] := rfl
    simp only [surgicallyRemoveLines, if_neg hnames, String.toList_ofList, codeTokens, RustToken.textOf_nil, hline,
      List.filter_cons, isRemovable_nil]
    rfl
  have hkept : ((['\n'].intercalate (parts.map ItemPart.text)).splitOn '\n').filter
      (fun line => !isRemovable chars names line) =
        ((parts.filter fun part => !part.isDeleted chars names).map ItemPart.text).flatMap (List.splitOn '\n') :=
    filter_splitOn_intercalate hparts fun part hpart line hline => by rw [hlines part hpart line hline]
  have hremoved : ((['\n'].intercalate (parts.map ItemPart.text)).splitOn '\n').filter
      (fun line => isRemovable chars names line) =
        (parts.filter fun part => part.isDeleted chars names).map ItemPart.text := by
    rw [filter_splitOn_intercalate hparts hlines, List.flatMap_map]
    have hone : ∀ part ∈ parts.filter fun part => part.isDeleted chars names,
        part.text.splitOn '\n' = [part.text] := by
      intro part hpart
      obtain ⟨hpart, hdeleted⟩ := List.mem_filter.mp hpart
      exact (h part hpart).splitOn hdeleted
    rw [List.flatMap_congr hone, ← List.map_eq_flatMap]
  simp only [surgicallyRemoveLines, if_neg hnames, String.toList_ofList, textOf_codeTokens]
  rw [hkept, hremoved, intercalate_flatMap_splitOn]

/-- **The edit removes the fields that have to go**, each on a line of its own, and nothing else; what is left is
lexed as before, and its braces are matched if they were. -/
theorem surgicallyRemoveLines_fields (chars : CharClass) (names : Finset String) {parts : List ItemPart}
    (h : ∀ part ∈ parts, part.LaidOut chars names) :
    surgicallyRemoveLines chars (String.ofList (textOf (codeTokens parts))) names =
        (String.ofList (textOf (codeTokens (parts.filter fun part => !part.isDeleted chars names))),
          (parts.filter fun part => part.isDeleted chars names).map ItemPart.text) ∧
      (WellLexed chars (codeTokens parts) → BracesNest 0 (codeTokens parts) →
        WellLexed chars (codeTokens (parts.filter fun part => !part.isDeleted chars names)) ∧
          BracesNest 0 (codeTokens (parts.filter fun part => !part.isDeleted chars names))) := by
  refine ⟨surgicallyRemoveLines_codeTokens h, fun hlexed hbalanced => ⟨?_, ?_⟩⟩
  · rw [wellLexed_codeTokens] at hlexed ⊢
    exact fun part hpart => hlexed part (List.mem_of_mem_filter hpart)
  · rw [balanced_codeTokens le_rfl] at hbalanced ⊢
    rw [balanced_filter _ le_rfl]
    · exact hbalanced
    · intro part hpart hdeleted
      cases part with
      | field => exact (h _ hpart).braces
      | other => cases hdeleted

/-- A struct with a field of a type that is deleted. -/
def oldField : List ItemPart :=
  [.other ("struct S \x7b".toList.map .code),
    .field (" a: ".toList.map .code) [.code 'T'] ',' [.code ' ', .lineComment " old".toList],
    .other (" b: u8,\n\x7d".toList.map .code)]

/-- The theorem at a struct with a field to be removed that has a comment behind it. -/
theorem surgicallyRemoveLines_oldField :
    surgicallyRemoveLines .ascii (String.ofList (textOf (codeTokens oldField))) {"T"} =
        ("struct S \x7b\n b: u8,\n\x7d", [" a: T, // old".toList]) ∧
      BracesNest 0 (codeTokens (oldField.filter fun part => !part.isDeleted .ascii {"T"})) := by
  have hlaidOut : ∀ part ∈ oldField, part.LaidOut .ascii {"T"} := by
    intro part hpart
    simp only [oldField, List.mem_cons, List.not_mem_nil, or_false] at hpart
    rcases hpart with rfl | rfl | rfl
    · show ∀ line ∈ _, _
      have hlines : (textOf ("struct S \x7b".toList.map .code)).splitOn '\n' = ["struct S \x7b".toList] := by
        decide +kernel
      rw [hlines]
      simp only [List.mem_singleton, forall_eq]
      exact .inr (by decide +kernel)
    · exact {
        terminator_mark := .inl rfl
        one_line := by decide +kernel
        no_comment := by decide +kernel
        trailing_comment := ⟨[' '], "// old".toList, by decide +kernel, by simp [CharClass.ascii],
          .inr (by decide +kernel)⟩
        type_apart := by decide +kernel
        names_in_type := fun name hname _ => by
          rw [Finset.mem_singleton.mp hname]
          decide +kernel
        braces := by decide +kernel }
    · show ∀ line ∈ _, _
      have hlines : (textOf (" b: u8,\n\x7d".toList.map .code)).splitOn '\n' = [" b: u8,".toList, ['\x7d']] := by
        decide +kernel
      rw [hlines]
      simp only [List.mem_cons, List.not_mem_nil, or_false, forall_eq_or_imp, forall_eq, Finset.mem_singleton]
      exact ⟨.inl (by decide +kernel), .inl (by decide +kernel)⟩
  obtain ⟨hedit, hbraces⟩ := surgicallyRemoveLines_fields .ascii {"T"} hlaidOut
  refine ⟨hedit.trans (by decide +kernel), (hbraces (by decide +kernel) (by decide +kernel)).2⟩

/-- In a struct on one line nothing is removed. -/
theorem surgicallyRemoveLines_oneLine :
    mentions .ascii "T" "struct S \x7b a: T, b: u8 \x7d" = true ∧
      surgicallyRemoveLines .ascii "struct S \x7b a: T, b: u8 \x7d" {"T"} = ("struct S \x7b a: T, b: u8 \x7d", []) := by
  decide +kernel

end Assure
