import Mathlib.Data.List.DropRight
import Mathlib.Logic.Relation
import Mathlib.Tactic.Common

/-!
# Texts in which brackets match

A text whose round brackets match is a row of characters and groups. A rewriting replaces a group by something of what
is in it (`Cut`). Where it leaves the other groups as they are, each group that can be replaced is replaced in the end,
whatever the order (`Cuts.count`).
-/

namespace Assure.Library

/-- **A text whose brackets match.** -/
inductive Bracketed
  | nil
  | char (c : Char) (rest : Bracketed)
  | group (inner rest : Bracketed)

namespace Bracketed

/-- The text. -/
def text : Bracketed → List Char
  | .nil => []
  | .char c rest => c :: rest.text
  | .group inner rest => '(' :: (inner.text ++ ')' :: rest.text)

/-- One text after another. -/
def append : Bracketed → Bracketed → Bracketed
  | .nil, g => g
  | .char c rest, g => .char c (rest.append g)
  | .group inner rest, g => .group inner (rest.append g)

instance : Append Bracketed := ⟨append⟩

/-- A text without brackets. -/
def ofChars : List Char → Bracketed
  | [] => .nil
  | c :: cs => .char c (ofChars cs)

/-- The number of groups. -/
def groups : Bracketed → Nat
  | .nil => 0
  | .char _ rest => rest.groups
  | .group inner rest => inner.groups + rest.groups + 1

/-- No character is a bracket. -/
def Plain : Bracketed → Prop
  | .nil => True
  | .char c rest => c ≠ '(' ∧ c ≠ ')' ∧ rest.Plain
  | .group inner rest => inner.Plain ∧ rest.Plain

/-- The empty text in front adds nothing. -/
@[simp] theorem nil_append (g : Bracketed) : nil ++ g = g := rfl

/-- A text is set behind another one character by character. -/
@[simp] theorem char_append (c : Char) (f g : Bracketed) : char c f ++ g = char c (f ++ g) := rfl

/-- A group in front stays a group: what follows is set behind it, not into it. -/
@[simp] theorem group_append (inner f g : Bracketed) : group inner f ++ g = group inner (f ++ g) := rfl

/-- The empty text behind adds nothing. -/
@[simp] theorem append_nil (f : Bracketed) : f ++ nil = f := by
  induction f with
  | nil => rfl
  | char c rest ih => rw [char_append, ih]
  | group inner rest _ ih => rw [group_append, ih]

/-- Texts are set behind each other in any order of the joints. -/
theorem append_assoc (f g h : Bracketed) : f ++ g ++ h = f ++ (g ++ h) := by
  induction f with
  | nil => rfl
  | char c rest ih => rw [char_append, char_append, char_append, ih]
  | group inner rest _ ih => rw [group_append, group_append, group_append, ih]

/-- Read as rows of characters the texts follow each other. -/
@[simp] theorem text_append (f g : Bracketed) : (f ++ g).text = f.text ++ g.text := by
  induction f with
  | nil => rfl
  | char c rest ih => rw [char_append, text, text, ih, List.cons_append]
  | group inner rest _ ih => rw [group_append, text, text, ih, List.cons_append, List.append_assoc, List.cons_append]

/-- The groups of both are counted. -/
@[simp] theorem groups_append (f g : Bracketed) : (f ++ g).groups = f.groups + g.groups := by
  induction f with
  | nil => exact (Nat.zero_add _).symm
  | char c rest ih => exact ih
  | group inner rest _ ih =>
    rw [group_append, groups, groups, ih]
    omega

/-- A text without loose brackets consists of parts without. -/
theorem plain_append {f g : Bracketed} : (f ++ g).Plain ↔ f.Plain ∧ g.Plain := by
  induction f with
  | nil => exact (and_iff_right trivial).symm
  | char c rest ih => rw [char_append, Plain, Plain, ih, and_assoc, and_assoc]
  | group inner rest _ ih => rw [group_append, Plain, Plain, ih, and_assoc]

/-- A row of characters without brackets is such a text. -/
theorem plain_ofChars {cs : List Char} (h : ∀ c ∈ cs, c ≠ '(' ∧ c ≠ ')') : (ofChars cs).Plain := by
  induction cs with
  | nil => trivial
  | cons c cs ih =>
    exact ⟨(h c List.mem_cons_self).1, (h c List.mem_cons_self).2, ih fun d hd => h d (List.mem_cons_of_mem c hd)⟩

/-! ## Rewriting groups -/

section

variable (reduce : Bracketed → Option Bracketed)

/-- **One group is replaced** by what `reduce` makes of its inside. -/
inductive Cut : Bracketed → Bracketed → Prop
  | here {inner operand rest : Bracketed} (h : reduce inner = some operand) : Cut (.group inner rest) (operand ++ rest)
  | char {c : Char} {rest rest' : Bracketed} (h : Cut rest rest') : Cut (.char c rest) (.char c rest')
  | inner {inner inner' rest : Bracketed} (h : Cut inner inner') : Cut (.group inner rest) (.group inner' rest)
  | rest {inner rest rest' : Bracketed} (h : Cut rest rest') : Cut (.group inner rest) (.group inner rest')

/-- The number of groups that can be replaced. -/
def redexes : Bracketed → Nat
  | .nil => 0
  | .char _ rest => rest.redexes
  | .group inner rest => (if (reduce inner).isSome then 1 else 0) + inner.redexes + rest.redexes

end

section Rewriting

variable {reduce : Bracketed → Option Bracketed}

/-- The places where something can be cut are those of both parts. -/
@[simp] theorem redexes_append (f g : Bracketed) :
    redexes reduce (f ++ g) = redexes reduce f + redexes reduce g := by
  induction f with
  | nil => exact (Nat.zero_add _).symm
  | char c rest ih => exact ih
  | group inner rest _ ih =>
    rw [group_append, redexes, redexes, ih]
    omega

/-- A cut does not depend on what follows. -/
theorem Cut.append_right {f f' : Bracketed} (h : Cut reduce f f') (g : Bracketed) :
    Cut reduce (f ++ g) (f' ++ g) := by
  induction h with
  | here h =>
    rw [group_append, append_assoc]
    exact .here h
  | char _ ih => exact .char ih
  | inner h _ => exact .inner h
  | rest _ ih => exact .rest ih

/-- **A bracket in a text opens a group**, which can be replaced where `reduce` has something for it. -/
theorem exists_group : ∀ {f : Bracketed} {front back : List Char}, f.Plain → f.text = front ++ '(' :: back →
    ∃ inner after, inner.Plain ∧ back = inner.text ++ ')' :: after ∧
      ∀ operand, reduce inner = some operand →
        ∃ f', Cut reduce f f' ∧ f'.text = front ++ operand.text ++ after
  | .nil, front, back, _, h => by cases front <;> cases h
  | .char c rest, [], back, hplain, h => absurd (List.cons.inj h).1 hplain.1
  | .char c rest, d :: front, back, hplain, h => by
    obtain ⟨rfl, hrest⟩ := List.cons.inj h
    obtain ⟨inner, after, hinner, hback, hcut⟩ := exists_group hplain.2.2 hrest
    refine ⟨inner, after, hinner, hback, fun operand hreduce => ?_⟩
    obtain ⟨f', hf', htext⟩ := hcut operand hreduce
    exact ⟨.char c f', .char hf', congrArg (c :: ·) htext⟩
  | .group inner rest, [], back, hplain, h => by
    refine ⟨inner, rest.text, hplain.1, (List.cons.inj h).2.symm, fun operand hreduce => ?_⟩
    exact ⟨operand ++ rest, .here hreduce, text_append operand rest⟩
  | .group inner rest, d :: front, back, hplain, h => by
    obtain ⟨rfl, hrest⟩ := List.cons.inj h
    rcases List.append_eq_append_iff.mp hrest with ⟨more, hfront, hrest⟩ | ⟨more, hinner, hback⟩
    · cases more with
      | nil => exact absurd (List.cons.inj hrest).1 (by decide)
      | cons e more =>
        obtain ⟨rfl, hafter⟩ := List.cons.inj hrest
        obtain ⟨inner', after, hplain', hback, hcut⟩ := exists_group hplain.2 hafter
        refine ⟨inner', after, hplain', hback, fun operand hreduce => ?_⟩
        obtain ⟨f', hf', htext⟩ := hcut operand hreduce
        refine ⟨.group inner f', .rest hf', ?_⟩
        rw [text, htext, hfront]
        simp
    · cases more with
      | nil => exact absurd (List.cons.inj hback).1 (by decide)
      | cons e more =>
        obtain ⟨rfl, hafter⟩ := List.cons.inj hback
        obtain ⟨inner', after, hplain', hmore, hcut⟩ := exists_group hplain.1 hinner
        refine ⟨inner', after ++ ')' :: rest.text, hplain', ?_, fun operand hreduce => ?_⟩
        · rw [hafter, hmore]
          simp
        · obtain ⟨f', hf', htext⟩ := hcut operand hreduce
          refine ⟨.group f' rest, .inner hf', ?_⟩
          rw [text, htext]
          simp

/-- A group that can be replaced stands somewhere in the text. -/
theorem exists_redex {f : Bracketed} (hplain : f.Plain) (h : 0 < redexes reduce f) :
    ∃ front inner after, inner.Plain ∧ (reduce inner).isSome ∧
      f.text = front ++ '(' :: (inner.text ++ ')' :: after) := by
  induction f with
  | nil => exact absurd h (Nat.lt_irrefl 0)
  | char c rest ih =>
    obtain ⟨front, inner, after, hinner, hreduce, htext⟩ := ih hplain.2.2 h
    exact ⟨c :: front, inner, after, hinner, hreduce, congrArg (c :: ·) htext⟩
  | group inner rest ih ih' =>
    rw [redexes] at h
    by_cases hreduce : (reduce inner).isSome
    · exact ⟨[], inner, rest.text, hplain.1, hreduce, rfl⟩
    · rw [if_neg hreduce, Nat.zero_add] at h
      rcases Nat.add_pos_iff_pos_or_pos.mp h with h | h
      · obtain ⟨front, inner', after, hinner, hreduce, htext⟩ := ih hplain.1 h
        refine ⟨'(' :: front, inner', after ++ ')' :: rest.text, hinner, hreduce, ?_⟩
        rw [text, htext]
        simp
      · obtain ⟨front, inner', after, hinner, hreduce, htext⟩ := ih' hplain.2 h
        refine ⟨'(' :: (inner.text ++ ')' :: front), inner', after, hinner, hreduce, ?_⟩
        rw [text, htext]
        simp

/-- What `reduce` gives has the groups of the inside, as they are, and a group that can be replaced still can after a
replacement in it. -/
structure Shrinks (reduce : Bracketed → Option Bracketed) : Prop where
  groups : ∀ inner operand, reduce inner = some operand → operand.groups = inner.groups
  redexes : ∀ inner operand, reduce inner = some operand → redexes reduce operand = redexes reduce inner
  plain : ∀ inner operand, reduce inner = some operand → inner.Plain → operand.Plain
  stable : ∀ inner inner', Cut reduce inner inner' → (reduce inner).isSome → (reduce inner').isSome

/-- A cut brings no loose bracket in. -/
theorem Cut.plain {f f' : Bracketed} (hreduce : Shrinks reduce) (h : Cut reduce f f') (hplain : f.Plain) :
    f'.Plain := by
  induction h with
  | here h => exact plain_append.mpr ⟨hreduce.plain _ _ h hplain.1, hplain.2⟩
  | char _ ih => exact ⟨hplain.1, hplain.2.1, ih hplain.2.2⟩
  | inner _ ih => exact ⟨ih hplain.1, hplain.2⟩
  | rest _ ih => exact ⟨hplain.1, ih hplain.2⟩

/-- **One replacement** takes one group away, and at most one of those that can be replaced. -/
theorem Cut.count {f f' : Bracketed} (hreduce : Shrinks reduce) (h : Cut reduce f f') :
    f.groups = f'.groups + 1 ∧ redexes reduce f ≤ redexes reduce f' + 1 := by
  induction h with
  | here h =>
    rw [groups_append, redexes_append, hreduce.groups _ _ h, hreduce.redexes _ _ h, groups, redexes, h,
      Option.isSome_some, if_pos rfl]
    omega
  | char _ ih => exact ih
  | inner h ih =>
    have hstable := hreduce.stable _ _ h
    rw [groups, groups, redexes, redexes]
    refine ⟨by omega, ?_⟩
    split
    · rename_i hsome
      rw [if_pos (hstable hsome)]
      omega
    · split <;> omega
  | rest _ ih =>
    rw [groups, groups, redexes, redexes]
    omega

/-- Nor does any number of cuts. -/
theorem Cuts.plain {f f' : Bracketed} (hreduce : Shrinks reduce) (h : Relation.ReflTransGen (Cut reduce) f f')
    (hplain : f.Plain) : f'.Plain := by
  induction h with
  | refl => exact hplain
  | tail _ hcut ih => exact hcut.plain hreduce ih

/-- **A group that can be replaced is replaced** before there is nothing left to replace. -/
theorem Cuts.count {f f' : Bracketed} (hreduce : Shrinks reduce) (h : Relation.ReflTransGen (Cut reduce) f f')
    (hdone : redexes reduce f' = 0) : f'.groups + redexes reduce f ≤ f.groups := by
  induction h using Relation.ReflTransGen.head_induction_on with
  | refl => exact Nat.le_of_eq (by rw [hdone, Nat.add_zero])
  | head hcut _ ih =>
    obtain ⟨hgroups, hredexes⟩ := hcut.count hreduce
    omega

end Rewriting

/-! ## Beginnings and ends -/

/-- Without the blanks at the beginning. -/
def dropBlanks (space : Char → Bool) : Bracketed → Bracketed
  | .char c rest => if space c then dropBlanks space rest else .char c rest
  | f => f

/-- What follows a word at the beginning. -/
def takeWord : List Char → Bracketed → Option Bracketed
  | [], f => some f
  | a :: word, .char c rest => if a = c then takeWord word rest else none
  | _ :: _, _ => none

/-- Without the blanks at the end. -/
def trimEnd (space : Char → Bool) : Bracketed → Bracketed
  | .nil => .nil
  | .char c rest =>
    match trimEnd space rest with
    | .nil => if space c then .nil else .char c .nil
    | rest' => .char c rest'
  | .group inner rest => .group inner (trimEnd space rest)

/-- **A text that goes on like another one** up to the first group there. -/
inductive Grows : Bracketed → Bracketed → Prop
  | nil : Grows .nil .nil
  | char {c : Char} {rest rest' : Bracketed} (h : Grows rest rest') : Grows (.char c rest) (.char c rest')
  | group {inner rest f : Bracketed} : Grows (.group inner rest) f

section Parts

variable {space : Char → Bool} {reduce : Bracketed → Option Bracketed}

/-- A text grows out of itself with nothing added. -/
theorem Grows.refl (f : Bracketed) : Grows f f := by
  induction f with
  | nil => exact .nil
  | char c rest ih => exact .char ih
  | group inner rest => exact .group

/-- Where two texts grow, so does the one set behind the other. -/
theorem Grows.append {f f' g g' : Bracketed} (h : Grows f f') (hg : Grows g g') : Grows (f ++ g) (f' ++ g') := by
  induction h with
  | nil => exact hg
  | char _ ih => exact .char ih
  | group => exact .group

/-- A cut undoes a growth: the groups around the operand are what had been added. -/
theorem Cut.grows {f f' : Bracketed} (h : Cut reduce f f') : Grows f f' := by
  induction h with
  | char _ ih => exact .char ih
  | _ => exact .group

/-- Dropping blanks in front commutes with growing. -/
theorem Grows.dropBlanks {f f' : Bracketed} (h : Grows f f') : Grows (f.dropBlanks space) (f'.dropBlanks space) := by
  induction h with
  | nil => exact .nil
  | char h ih =>
    rw [Bracketed.dropBlanks, Bracketed.dropBlanks]
    split
    · exact ih
    · exact .char h
  | group => exact .group

/-- A word that can be taken off a text can be taken off what grows out of it. -/
theorem Grows.takeWord {word : List Char} {f f' g : Bracketed} (h : Grows f f') (hword : f.takeWord word = some g) :
    ∃ g', f'.takeWord word = some g' ∧ Grows g g' := by
  induction h generalizing word with
  | nil =>
    cases word with
    | nil => exact ⟨_, hword, .refl _⟩
    | cons a word => cases hword
  | @char c rest rest' h ih =>
    cases word with
    | nil =>
      obtain rfl := Option.some.inj hword
      exact ⟨_, rfl, .char h⟩
    | cons a word =>
      rw [Bracketed.takeWord] at hword ⊢
      split at hword
      · rename_i hac
        rw [if_pos hac]
        exact ih hword
      · cases hword
  | group =>
    cases word with
    | nil =>
      obtain rfl := Option.some.inj hword
      exact ⟨_, rfl, .group⟩
    | cons a word => cases hword

/-- **Parts of a text** with the same groups: only characters are missing. -/
structure Part (f g : Bracketed) : Prop where
  groups : f.groups = g.groups
  redexes : ∀ reduce, redexes reduce f = redexes reduce g
  plain : g.Plain → f.Plain

/-- A text is a part of itself. -/
theorem Part.refl (f : Bracketed) : Part f f := ⟨rfl, fun _ => rfl, id⟩

/-- A part of a part is a part. -/
theorem Part.trans {f g k : Bracketed} (h : Part f g) (h' : Part g k) : Part f k :=
  ⟨h.groups.trans h'.groups, fun reduce => (h.redexes reduce).trans (h'.redexes reduce), fun hk =>
    h.plain (h'.plain hk)⟩

/-- A part stays one when a character is set before the whole. -/
theorem Part.char {f g : Bracketed} (h : Part f g) (c : Char) : Part f (.char c g) :=
  ⟨h.groups, h.redexes, fun hc => h.plain hc.2.2⟩

/-- What is left without blanks in front is a part. -/
theorem part_dropBlanks (f : Bracketed) : Part (f.dropBlanks space) f := by
  induction f with
  | char c rest ih =>
    rw [Bracketed.dropBlanks]
    split
    · exact ih.char c
    · exact .refl _
  | _ => exact .refl _

/-- What is left behind a word is a part. -/
theorem part_takeWord : ∀ {word : List Char} {f g : Bracketed}, f.takeWord word = some g → Part g f
  | [], f, g, h => Option.some.inj h ▸ .refl f
  | a :: word, .char c rest, g, h => by
    rw [takeWord] at h
    split at h
    · exact (part_takeWord h).char c
    · cases h
  | _ :: _, .nil, _, h => by cases h
  | _ :: _, .group _ _, _, h => by cases h

/-- What is left without blanks at the end is a part. -/
theorem part_trimEnd (f : Bracketed) : Part (f.trimEnd space) f := by
  induction f with
  | nil => exact .refl _
  | char c rest ih =>
    rw [trimEnd]
    split
    · rename_i hnil
      rw [hnil] at ih
      split
      · exact ih.char c
      · exact ⟨ih.groups, ih.redexes, fun h => ⟨h.1, h.2.1, trivial⟩⟩
    · exact ⟨ih.groups, ih.redexes, fun h => ⟨h.1, h.2.1, ih.plain h.2.2⟩⟩
  | group inner rest _ ih =>
    refine ⟨?_, fun reduce => ?_, fun h => ⟨h.1, ih.plain h.2⟩⟩
    · rw [trimEnd, groups, groups, ih.groups]
    · rw [trimEnd, redexes, redexes, ih.redexes]

/-! ## In texts -/

/-- As rows of characters, what is left without blanks in front is an end of the text. -/
theorem suffix_dropBlanks (f : Bracketed) : (f.dropBlanks space).text <:+ f.text := by
  induction f with
  | char c rest ih =>
    rw [dropBlanks]
    split
    · exact ih.trans (List.suffix_cons c _)
    · exact List.suffix_refl _
  | _ => exact List.suffix_refl _

/-- What is left behind a word is an end of the text. -/
theorem suffix_takeWord : ∀ {word : List Char} {f g : Bracketed}, f.takeWord word = some g → g.text <:+ f.text
  | [], f, g, h => Option.some.inj h ▸ List.suffix_refl _
  | a :: word, .char c rest, g, h => by
    rw [takeWord] at h
    split at h
    · exact (suffix_takeWord h).trans (List.suffix_cons c _)
    · cases h
  | _ :: _, .nil, _, h => by cases h
  | _ :: _, .group _ _, _, h => by cases h

/-- Dropping blanks of a text with groups is dropping them of its characters, up to the bracket
behind it. Brackets are no blanks. -/
theorem text_dropBlanks (hopen : space '(' = false) (hclose : space ')' = false) (f : Bracketed) (after : List Char) :
    (f.text ++ ')' :: after).dropWhile space = (f.dropBlanks space).text ++ ')' :: after := by
  induction f with
  | nil => exact List.dropWhile_cons_of_neg (Bool.eq_false_iff.mp hclose)
  | char c rest ih =>
    rw [dropBlanks, text, List.cons_append]
    split
    · rename_i hspace
      rw [List.dropWhile_cons_of_pos hspace, ih]
    · rename_i hspace
      rw [List.dropWhile_cons_of_neg hspace, text, List.cons_append]
  | group inner rest => exact List.dropWhile_cons_of_neg (Bool.eq_false_iff.mp hopen)

/-- A word without brackets is read off a text as it is off the pieces. -/
theorem text_takeWord {word : List Char} (hword : ∀ c ∈ word, c ≠ '(' ∧ c ≠ ')') (f : Bracketed)
    (after : List Char) :
    (if word.isPrefixOf (f.text ++ ')' :: after) then some ((f.text ++ ')' :: after).drop word.length) else none) =
      (f.takeWord word).map fun g => g.text ++ ')' :: after := by
  induction word generalizing f with
  | nil => cases f <;> rfl
  | cons a word ih =>
    have hrest := fun c hc => hword c (List.mem_cons_of_mem a hc)
    have ha := hword a List.mem_cons_self
    cases f with
    | nil =>
      rw [text, List.nil_append, List.isPrefixOf, beq_eq_false_iff_ne.mpr ha.2, Bool.false_and,
        if_neg Bool.false_ne_true]
      rfl
    | char c rest =>
      rw [text, takeWord, List.cons_append, List.isPrefixOf]
      by_cases hac : a = c
      · rw [if_pos hac, beq_iff_eq.mpr hac, Bool.true_and, ← ih hrest rest]
        rfl
      · rw [if_neg hac, beq_eq_false_iff_ne.mpr hac, Bool.false_and, if_neg Bool.false_ne_true]
        rfl
    | group inner rest =>
      rw [text, List.cons_append, List.isPrefixOf, beq_eq_false_iff_ne.mpr ha.1, Bool.false_and,
        if_neg Bool.false_ne_true]
      rfl

/-- The same for blanks at the end. -/
theorem text_trimEnd (hclose : space ')' = false) (f : Bracketed) :
    (f.trimEnd space).text = f.text.rdropWhile space := by
  induction f with
  | nil => rfl
  | char c rest ih =>
    rw [text, List.rdropWhile, List.reverse_cons, List.dropWhile_append]
    rw [List.rdropWhile] at ih
    by_cases hempty : List.dropWhile space rest.text.reverse = []
    · have hnil : trimEnd space rest = .nil := by
        rw [hempty] at ih
        cases htrim : trimEnd space rest with
        | nil => rfl
        | _ => rw [htrim] at ih; cases ih
      rw [hempty, List.isEmpty_nil, if_pos rfl, trimEnd, hnil]
      dsimp only
      by_cases hspace : space c
      · rw [if_pos hspace, List.dropWhile_cons_of_pos hspace]
        rfl
      · rw [if_neg hspace, List.dropWhile_cons_of_neg hspace]
        rfl
    · rw [if_neg (by rwa [List.isEmpty_iff]), List.reverse_append, ← ih, trimEnd]
      split
      · rename_i hnil
        rw [hnil] at ih
        exact absurd (List.reverse_eq_nil_iff.mp ih.symm) hempty
      · rfl
  | group inner rest _ ih =>
    have hlast : ∀ text : List Char, ('(' :: (inner.text ++ ')' :: text)).rdropWhile space =
        '(' :: (inner.text ++ ')' :: text.rdropWhile space) := by
      intro text
      induction text using List.reverseRecOn with
      | nil =>
        have h := List.rdropWhile_concat_neg space ('(' :: inner.text) ')' (Bool.eq_false_iff.mp hclose)
        simpa using h
      | append_singleton text c iht =>
        have hcons : '(' :: (inner.text ++ ')' :: (text ++ [c])) = '(' :: (inner.text ++ ')' :: text) ++ [c] := by
          simp
        rw [hcons]
        by_cases hspace : space c
        · rw [List.rdropWhile_concat_pos _ _ _ hspace, List.rdropWhile_concat_pos _ _ _ hspace, iht]
        · rw [List.rdropWhile_concat_neg _ _ _ hspace, List.rdropWhile_concat_neg _ _ _ hspace, hcons]
    rw [trimEnd, text, text, ih, hlast]

end Parts

end Bracketed

end Assure.Library
