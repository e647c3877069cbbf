import Assure.Types.AnonymousUnions
import Mathlib.Data.List.DropRight
import Mathlib.Data.List.TakeWhile

/-!
# What the lifting of unions comes to

The loop over a text is followed through a struct (`traverses_text`): it finds the anonymous unions that have blanks
at most before their brace, passes over what is in them, and reads one name behind them (`outcome`). What is to come
out differs from that in the number of unions or in the number of characters that are no blanks, unless the struct
is `Liftable`.
-/

namespace Assure

open Assure.Library
open StructMember

section

variable {chars : CharClass}

/-! ## Searching -/

/-- Names are ASCII. -/
theorem isNameChar_ascii {c : Char} (h : isNameChar c = true) : c.toNat < 128 := by
  rcases Bool.or_eq_true_iff.mp h with h | h
  · delta Char.isAlphanum Char.isAlpha Char.isUpper Char.isLower Char.isDigit at h
    simp only [Bool.or_eq_true, Bool.and_eq_true, decide_eq_true_eq, ge_iff_le, UInt32.le_iff_toNat_le] at h
    change ((65 ≤ c.toNat ∧ c.toNat ≤ 90) ∨ (97 ≤ c.toNat ∧ c.toNat ≤ 122)) ∨ (48 ≤ c.toNat ∧ c.toNat ≤ 57) at h
    omega
  · rw [eq_of_beq h]
    decide

/-- A character of names belongs to words. -/
theorem word_of_isNameChar {c : Char} (h : isNameChar c = true) : chars.word c = true := by
  rw [chars.word_ascii c (isNameChar_ascii h)]
  exact h

/-- It is no blank. -/
theorem space_of_isNameChar {c : Char} (h : isNameChar c = true) : chars.space c = false := by
  cases hspace : chars.space c with
  | false => rfl
  | true => exact hspace.symm.trans (chars.disjoint c (word_of_isNameChar h))

/-- A name begins with one of its characters. -/
theorem isNameChar_of_start {c : Char} (h : isNameStart c = true) : isNameChar c = true := by
  rcases Bool.or_eq_true_iff.mp h with h | h
  · exact Bool.or_eq_true_iff.mpr (.inl (Bool.or_eq_true_iff.mpr (.inl h)))
  · exact Bool.or_eq_true_iff.mpr (.inr h)

/-- Two texts without braces are one. -/
theorem braceFree_append {text text' : List Char} (h : BraceFree text) (h' : BraceFree text') :
    BraceFree (text ++ text') := fun c hc => (List.mem_append.mp hc).elim (h c) (h' c)

/-- A semicolon is no brace. -/
theorem braceFree_semicolon : BraceFree [';'] := by
  intro c hc
  rw [List.mem_singleton.mp hc]
  decide

/-- Nor has the keyword one. -/
theorem braceFree_union : BraceFree "union".toList := by
  intro c hc
  have hall : ("union".toList.all fun c => c != '\x7b' && c != '\x7d') = true := by decide
  have hc := List.all_eq_true.mp hall c hc
  simpa using hc

/-- **Where a union is found** it stands as a word, with blanks before the brace. -/
theorem unionAt_eq_some {before : Option Char} {rest after : List Char} (h : unionAt chars before rest = some after) :
    before.any chars.word = false ∧ ∃ blanks, rest = "union".toList ++ (blanks ++ '\x7b' :: after) ∧
      ∀ c ∈ blanks, chars.space c = true := by
  unfold unionAt at h
  split at h
  · cases h
  · rename_i hbefore
    refine ⟨by simpa using hbefore, ?_⟩
    split at h
    · rename_i hprefix
      obtain ⟨more, rfl⟩ := List.isPrefixOf_iff_prefix.mp hprefix
      have hdrop : (("union".toList ++ more).drop 5) = more := rfl
      rw [hdrop] at h
      refine ⟨more.takeWhile chars.space, ?_, fun c hc => List.mem_takeWhile_imp hc⟩
      split at h
      · rename_i rest hrest
        rw [← Option.some.inj h, ← hrest, List.takeWhile_append_dropWhile]
      · cases h
    · cases h

/-- The keyword with blanks and a brace behind it opens a union, if no word goes on before it. -/
theorem unionAt_of_blanks {before : Option Char} {blanks : List Char} (hbefore : before.any chars.word = false)
    (hblanks : ∀ c ∈ blanks, chars.space c = true) (after : List Char) :
    unionAt chars before ("union".toList ++ (blanks ++ '\x7b' :: after)) = some after := by
  have hbrace : chars.space '\x7b' = false := chars.space_ascii _ (by decide)
  have hdrop : (("union".toList ++ (blanks ++ '\x7b' :: after)).drop 5) = blanks ++ '\x7b' :: after := rfl
  have hstart : "union".toList.isPrefixOf ("union".toList ++ (blanks ++ '\x7b' :: after)) = true :=
    List.isPrefixOf_iff_prefix.mpr (List.prefix_append _ _)
  unfold unionAt
  rw [hbefore, if_neg Bool.false_ne_true, if_pos hstart, hdrop, List.dropWhile_append_of_pos hblanks,
    List.dropWhile_cons_of_neg (by rw [hbrace]; exact Bool.false_ne_true)]
  rfl

variable (chars) in
/-- The number of characters that are no blanks. -/
def nonblanks (text : List Char) : Nat := text.countP fun c => !chars.space c

/-- What two texts have besides blanks is what both have. -/
theorem nonblanks_append (text text' : List Char) :
    nonblanks chars (text ++ text') = nonblanks chars text + nonblanks chars text' := List.countP_append

/-- A text has nothing besides blanks exactly if it is blank. -/
theorem nonblanks_eq_zero {text : List Char} : nonblanks chars text = 0 ↔ ∀ c ∈ text, chars.space c = true := by
  rw [nonblanks, List.countP_eq_zero]
  refine forall₂_congr fun c _ => ?_
  rw [Bool.not_eq_true', Bool.not_eq_false]

/-- **No union is found** from a place in a text on. -/
def Passed (chars : CharClass) (before : Option Char) (text rest : List Char) : Prop := ∀ front back,
    text = front ++ back →
  back ≠ [] → unionAt chars (Pattern.lastOr before front) (back ++ rest) = none

/-- The search passes over a text in which no union begins. -/
theorem searchUnion_append {rest : List Char} : ∀ {text : List Char} {before : Option Char},
    Passed chars before text rest →
    searchUnion chars before (text ++ rest) =
      (searchUnion chars (Pattern.lastOr before text) rest).map fun found => (text ++ found.1, found.2)
  | [], before, _ => by
    rw [List.nil_append, Pattern.lastOr_nil]
    exact Option.map_id'.symm
  | c :: text, before, h => by
    have hnone : unionAt chars before (c :: (text ++ rest)) = none := h [] (c :: text) rfl (List.cons_ne_nil _ _)
    have ih : searchUnion chars (some c) (text ++ rest) = _ := searchUnion_append fun front back htext hback => by
      have hmore := h (c :: front) back (congrArg (c :: ·) htext) hback
      rwa [Pattern.lastOr_cons] at hmore
    rw [List.cons_append, searchUnion, hnone, ih, Option.map_map, Pattern.lastOr_cons]
    rfl

/-- It stops at a union. -/
theorem searchUnion_found {before : Option Char} {rest after : List Char} (h : unionAt chars before rest = some after)
    (hne : rest ≠ []) : searchUnion chars before rest = some ([], after) := by
  obtain ⟨c, rest, rfl⟩ := List.exists_cons_of_ne_nil hne
  rw [searchUnion, h]

/-- What is before a brace that a union is found with. -/
theorem union_before_brace {text rest blanks after : List Char} {c : Char} (hfree : BraceFree text)
    (h : text ++ c :: rest = "union".toList ++ (blanks ++ '\x7b' :: after)) :
    c = '\x7b' ∧ text = "union".toList ++ blanks ∨ c ∈ "union".toList ++ blanks := by
  rw [← List.append_assoc] at h
  obtain ⟨more, htext, hrest⟩ | ⟨more, hunion, hrest⟩ := List.append_eq_append_iff.mp h
  · cases more with
    | nil =>
      rw [List.nil_append] at hrest
      rw [List.append_nil] at htext
      exact .inl ⟨(List.cons.inj hrest).1, htext.symm⟩
    | cons d more =>
      right
      rw [htext, (List.cons.inj hrest).1]
      exact List.mem_append_right _ List.mem_cons_self
  · cases more with
    | nil =>
      rw [List.nil_append] at hrest
      rw [List.append_nil] at hunion
      exact .inl ⟨(List.cons.inj hrest).1.symm, hunion⟩
    | cons d more =>
      have hbrace : '\x7b' ∈ text := by
        rw [hunion, (List.cons.inj hrest).1]
        exact List.mem_append_right _ List.mem_cons_self
      exact absurd rfl (hfree _ hbrace).1

/-- A text without braces is passed up to a union. -/
theorem passed_union {before : Option Char} {text blanks rest : List Char} (hfree : BraceFree text)
    (hblanks : ∀ c ∈ blanks, chars.space c = true) :
    Passed chars before text ("union".toList ++ (blanks ++ '\x7b' :: rest)) := by
  intro front back htext hback
  cases hfound : unionAt chars (Pattern.lastOr before front) (back ++ ("union".toList ++ (blanks ++ '\x7b' :: rest))) with
  | none => rfl
  | some after =>
    exfalso
    obtain ⟨-, blanks', hrest, hblanks'⟩ := unionAt_eq_some hfound
    have hspaces : BraceFree blanks := by
      intro c hc
      have hc := hblanks c hc
      refine ⟨?_, ?_⟩ <;> rintro rfl <;> exact absurd hc (by rw [chars.space_ascii _ (by decide)]; decide)
    have hall : BraceFree (back ++ ("union".toList ++ blanks)) := by
      refine braceFree_append (fun c hc => hfree c ?_) (braceFree_append braceFree_union hspaces)
      rw [htext]
      exact List.mem_append_right _ hc
    have hrest : (back ++ ("union".toList ++ blanks)) ++ '\x7b' :: rest =
        "union".toList ++ (blanks' ++ '\x7b' :: after) := by
      simpa only [List.append_assoc] using hrest
    rcases union_before_brace hall hrest with ⟨-, hsame⟩ | hmem
    · have hcount := congrArg (nonblanks chars) hsame
      simp only [nonblanks_append, nonblanks_eq_zero.mpr hblanks, nonblanks_eq_zero.mpr hblanks'] at hcount
      have hzero : nonblanks chars back = 0 := by omega
      obtain ⟨c, back, rfl⟩ := List.exists_cons_of_ne_nil hback
      have hc : c = 'u' := (List.cons.inj hsame).1
      have hspace := nonblanks_eq_zero.mp hzero c List.mem_cons_self
      rw [hc, chars.space_ascii _ (by decide)] at hspace
      exact absurd hspace (by decide)
    · rcases List.mem_append.mp hmem with hmem | hmem
      · exact absurd hmem (by decide)
      · exact absurd (hblanks' _ hmem) (by rw [chars.space_ascii _ (by decide)]; decide)

/-- A text without braces up to a mark is passed. -/
theorem passed_mark {before : Option Char} {text rest : List Char} {c : Char} (hfree : BraceFree text)
    (hmark : c ∉ "union".toList) (hspace : chars.space c = false) (hbrace : c ≠ '\x7b') :
    Passed chars before (text ++ [c]) rest := by
  intro front back htext hback
  cases hfound : unionAt chars (Pattern.lastOr before front) (back ++ rest) with
  | none => rfl
  | some after =>
    obtain ⟨-, blanks, hrest, hblanks⟩ := unionAt_eq_some hfound
    obtain ⟨back, rfl⟩ : ∃ init, back = init ++ [c] := by
      obtain ⟨init, last, rfl⟩ := List.eq_nil_or_concat' back |>.resolve_left hback
      rw [← List.append_assoc] at htext
      rw [(List.append_inj' htext rfl).2]
      exact ⟨init, rfl⟩
    have hback : BraceFree back := by
      intro d hd
      apply hfree
      rw [← List.append_assoc] at htext
      rw [(List.append_inj' htext rfl).1]
      exact List.mem_append_right _ hd
    rw [List.append_assoc, List.singleton_append] at hrest
    rcases union_before_brace hback hrest with ⟨rfl, -⟩ | hmem
    · exact absurd rfl hbrace
    · rcases List.mem_append.mp hmem with hmem | hmem
      · exact absurd hmem hmark
      · exact absurd (hblanks c hmem) (by rw [hspace]; exact Bool.false_ne_true)

/-- So is one up to a brace that does not end with the word `union`. -/
theorem passed_brace {before : Option Char} {text rest : List Char} (hfree : BraceFree text)
    (hword : ∀ start blanks, text = start ++ ("union".toList ++ blanks) → (∀ c ∈ blanks, chars.space c = true) →
      (Pattern.lastOr before start).any chars.word = true) :
    Passed chars before (text ++ ['\x7b']) rest := by
  intro front back htext hback
  cases hfound : unionAt chars (Pattern.lastOr before front) (back ++ rest) with
  | none => rfl
  | some after =>
    obtain ⟨hbefore, blanks, hrest, hblanks⟩ := unionAt_eq_some hfound
    obtain ⟨init, last, rfl⟩ := List.eq_nil_or_concat' back |>.resolve_left hback
    rw [← List.append_assoc] at htext
    obtain ⟨htext, hlast⟩ := List.append_inj' htext rfl
    rw [← (List.cons.inj hlast).1, List.append_assoc, List.singleton_append] at hrest
    have hinit : BraceFree init := fun d hd => hfree d (by rw [htext]; exact List.mem_append_right _ hd)
    rcases union_before_brace hinit hrest with ⟨-, rfl⟩ | hmem
    · rw [hword front blanks htext hblanks] at hbefore
      cases hbefore
    · exfalso
      rcases List.mem_append.mp hmem with hmem | hmem
      · exact absurd hmem (by decide)
      · exact absurd (hblanks _ hmem) (by rw [chars.space_ascii _ (by decide)]; decide)

/-! ## Matching braces -/

/-- **A text whose braces match**, whatever follows it. -/
def Closed (text : List Char) : Prop := ∀ depth rest, findBraceBalancedEnd (depth + 1) (text ++ rest) =
  (findBraceBalancedEnd (depth + 1) rest).map fun found => (text ++ found.1, found.2)

/-- Two texts whose braces match are one. -/
theorem Closed.append {text text' : List Char} (h : Closed text) (h' : Closed text') : Closed (text ++ text') := by
  intro depth rest
  rw [List.append_assoc, h, h', Option.map_map]
  simp only [Function.comp_def, List.append_assoc]

/-- A text without braces is one whose braces match. -/
theorem BraceFree.closed : ∀ {text : List Char}, BraceFree text → Closed text
  | [], _ => fun _ _ => Option.map_id'.symm
  | c :: text, h => by
    intro depth rest
    have ih : Closed text := BraceFree.closed fun d hd => h d (List.mem_cons_of_mem c hd)
    obtain ⟨hopen, hclose⟩ := h c List.mem_cons_self
    rw [List.cons_append, findBraceBalancedEnd, if_neg hopen, if_neg hclose, ih, Option.map_map]
    rfl

/-- Braces around a text. -/
theorem Closed.braces {text : List Char} (h : Closed text) : Closed ('\x7b' :: (text ++ ['\x7d'])) := by
  intro depth rest
  have hclose : ∀ rest, findBraceBalancedEnd (depth + 2) ('\x7d' :: rest) =
      (findBraceBalancedEnd (depth + 1) rest).map fun found => ('\x7d' :: found.1, found.2) := by
    intro rest
    rw [findBraceBalancedEnd, if_neg (by decide), if_pos rfl, if_neg (by omega)]
    rfl
  rw [List.cons_append, findBraceBalancedEnd, if_pos rfl, List.append_assoc, h, List.singleton_append, hclose,
    Option.map_map, Option.map_map]
  simp only [Function.comp_def, List.append_assoc, List.nil_append, List.cons_append]

/-- Its closing brace is found. -/
theorem Closed.end {text : List Char} (h : Closed text) (rest : List Char) :
    findBraceBalancedEnd 1 (text ++ '\x7d' :: rest) = some (text, rest) := by
  rw [h, findBraceBalancedEnd, if_neg (by decide), if_pos rfl, if_pos (Nat.le_refl 1), Option.map_some, List.append_nil]

/-- What is declared by a member has no braces and no semicolon. -/
theorem Declared.WellFormed.free {declared : Declared} (h : declared.WellFormed chars) :
    ∀ c ∈ declared.text, c ≠ '\x7b' ∧ c ≠ '\x7d' ∧ c ≠ ';' := by
  have hname : ∀ {c}, isNameChar c = true → c ≠ '\x7b' ∧ c ≠ '\x7d' ∧ c ≠ ';' := by
    intro c hc
    refine ⟨?_, ?_, ?_⟩ <;> rintro rfl <;> revert hc <;> decide
  have hdeclarator : ∀ {d : Declarator}, d.WellFormed → ∀ c ∈ d.text, c ≠ '\x7b' ∧ c ≠ '\x7d' ∧ c ≠ ';' := by
    intro d hd c hc
    rcases List.mem_append.mp hc with hc | hc
    · exact hd.before_free c hc
    rcases List.mem_append.mp hc with hc | hc
    · exact hname (hd.word c hc)
    · exact hd.after_free c hc
  intro c hc
  cases declared with
  | unnamed gap => exact IsGap.free h c hc
  | named first more =>
    rcases List.mem_append.mp hc with hc | hc
    · exact hdeclarator (h first List.mem_cons_self) c hc
    · obtain ⟨d, hd, hc⟩ := List.mem_flatMap.mp hc
      rcases List.mem_cons.mp hc with rfl | hc
      · decide
      · exact hdeclarator (h d (List.mem_cons_of_mem first hd)) c hc

/-- So it is free of braces. -/
theorem Declared.WellFormed.braceFree {declared : Declared} (h : declared.WellFormed chars) : BraceFree declared.text :=
  fun c hc => ⟨(h.free c hc).1, (h.free c hc).2.1⟩

/-- What stands between two parts of a member has no braces. -/
theorem IsGap.braceFree {gap : List CToken} {mark : Char} (h : IsGap chars gap mark) : BraceFree (CToken.textOf gap) :=
  fun c hc => ⟨(h.free c hc).1, (h.free c hc).2.1⟩

mutual

/-- The braces of a member match. -/
theorem closed_text : ∀ {member : StructMember}, member.WellFormed chars → Closed member.text
  | .plain front declared, h => by
    rw [StructMember.text]
    exact (h.1.closed).append ((h.2.braceFree.closed).append braceFree_semicolon.closed)
  | .nested front members trailing declared, h => by
    have hinner : Closed (textOf members ++ trailing) := (closed_textOf h.2.1.1).append h.2.2.1.closed
    have htail := h.2.2.2.braceFree.closed.append braceFree_semicolon.closed
    have hall := h.1.1.closed.append (hinner.braces.append htail)
    rw [StructMember.text]
    simpa only [List.append_assoc, List.cons_append, List.singleton_append, List.nil_append] using hall
  | .union front gap members trailing declared, h => by
    have hinner : Closed (textOf members ++ trailing) := (closed_textOf h.2.1.1).append h.2.2.1.closed
    have htail := h.2.2.2.braceFree.closed.append braceFree_semicolon.closed
    have hfront := braceFree_append h.1.1 (braceFree_append braceFree_union h.1.2.2.braceFree)
    have hall := hfront.closed.append (hinner.braces.append htail)
    rw [StructMember.text]
    simpa only [List.append_assoc, List.cons_append, List.singleton_append, List.nil_append] using hall

/-- So do those of several members. -/
theorem closed_textOf : ∀ {members : List StructMember}, AllWellFormed chars members → Closed (textOf members)
  | [], _ => BraceFree.closed fun c hc => absurd hc (by simp [textOf])
  | member :: members, h => by
    rw [textOf]
    exact (closed_text h.1).append (closed_textOf h.2)

end

/-! ## Reading a name -/

/-- Dropping stops at a mark, whatever follows it. -/
theorem dropWhile_append_mark {p : Char → Bool} {c : Char} (hc : p c = false) (rest : List Char) :
    ∀ text : List Char, (text ++ c :: rest).dropWhile p = text.dropWhile p ++ c :: rest
  | [] => List.dropWhile_cons_of_neg (by rw [hc]; exact Bool.false_ne_true)
  | d :: text => by
    rw [List.cons_append]
    cases hd : p d with
    | true => rw [List.dropWhile_cons_of_pos hd, List.dropWhile_cons_of_pos hd, dropWhile_append_mark hc rest text]
    | false =>
      have hne : ¬ p d = true := by rw [hd]; exact Bool.false_ne_true
      rw [List.dropWhile_cons_of_neg hne, List.dropWhile_cons_of_neg hne, List.cons_append]

/-- So does taking. -/
theorem takeWhile_append_mark {p : Char → Bool} {c : Char} (hc : p c = false) (rest : List Char) :
    ∀ text : List Char, (text ++ c :: rest).takeWhile p = text.takeWhile p
  | [] => List.takeWhile_cons_of_neg (by rw [hc]; exact Bool.false_ne_true)
  | d :: text => by
    rw [List.cons_append]
    cases hd : p d with
    | true => rw [List.takeWhile_cons_of_pos hd, List.takeWhile_cons_of_pos hd, takeWhile_append_mark hc rest text]
    | false =>
      have hne : ¬ p d = true := by rw [hd]; exact Bool.false_ne_true
      rw [List.takeWhile_cons_of_neg hne, List.takeWhile_cons_of_neg hne]

variable (chars) in
/-- **What is read behind a union**: a name, and what is left of the declarators. -/
def readDeclared (text : List Char) : List Char × List Char :=
  let named := text.dropWhile chars.space
  if named.head?.any isNameStart then (named.takeWhile isNameChar, (named.dropWhile isNameChar).dropWhile chars.space)
  else (['u'], named)

/-- What is left over is part of the text. -/
theorem readDeclared_subset {text : List Char} {c : Char} (h : c ∈ (readDeclared chars text).2) : c ∈ text := by
  unfold readDeclared at h
  dsimp only at h
  split at h
  · exact (List.dropWhile_suffix _).subset ((List.dropWhile_suffix _).subset ((List.dropWhile_suffix _).subset h))
  · exact (List.dropWhile_suffix _).subset h

/-- What is left, up to the semicolon. -/
def leftOver (rest : List Char) : List Char := if rest = [] then [] else rest ++ [';']

/-- Up to a semicolon everything is skipped but what was left over. -/
theorem skipSemicolon_append {rest : List Char} (hfree : ∀ c ∈ rest, c ≠ ';') (k : List Char) :
    skipSemicolon chars (rest ++ ';' :: k) = leftOver (rest.dropWhile chars.space) ++ k := by
  have hspace : chars.space ';' = false := chars.space_ascii _ (by decide)
  unfold skipSemicolon
  rw [dropWhile_append_mark hspace]
  cases hdrop : rest.dropWhile chars.space with
  | nil => rfl
  | cons c more =>
    have hc : c ≠ ';' := hfree c ((List.dropWhile_suffix _).subset (by rw [hdrop]; exact List.mem_cons_self))
    rw [leftOver, if_neg (List.cons_ne_nil _ _), List.append_assoc, List.cons_append]
    split
    · rename_i h
      exact absurd (List.cons.inj h).1 hc
    · rfl

/-- The name is read before the semicolon, and what is left over stays in front of what follows. -/
theorem readName_append {text : List Char} (hfree : ∀ c ∈ text, c ≠ ';') (k : List Char) :
    (readName chars (text ++ ';' :: k)).1 = (readDeclared chars text).1 ∧
      skipSemicolon chars (readName chars (text ++ ';' :: k)).2 = leftOver (readDeclared chars text).2 ++ k := by
  have hspace : chars.space ';' = false := chars.space_ascii _ (by decide)
  have hname : isNameChar ';' = false := by decide
  have hdropped : ∀ c ∈ text.dropWhile chars.space, c ≠ ';' :=
    fun c hc => hfree c ((List.dropWhile_suffix _).subset hc)
  have hidem : ∀ l : List Char, (l.dropWhile chars.space).dropWhile chars.space = l.dropWhile chars.space :=
    fun l => List.dropWhile_idempotent chars.space l
  have hhead : ((text.dropWhile chars.space) ++ ';' :: k).head?.any isNameStart =
      (text.dropWhile chars.space).head?.any isNameStart := by
    cases text.dropWhile chars.space <;> rfl
  unfold readName readDeclared
  dsimp only
  rw [dropWhile_append_mark hspace, hhead]
  split
  · refine ⟨takeWhile_append_mark hname _ _, ?_⟩
    rw [dropWhile_append_mark hname]
    exact skipSemicolon_append (fun c hc => hdropped c ((List.dropWhile_suffix _).subset hc)) k
  · refine ⟨rfl, ?_⟩
    rw [skipSemicolon_append hdropped, hidem]

/-! ## The loop -/

variable (chars) in
/-- Nothing but blanks before the brace of a union. -/
def onlyBlanks (gap : List CToken) : Bool := (CToken.textOf gap).all chars.space

/-- A gap begins with no letter. -/
theorem IsGap.head_apart {gap : List CToken} {mark : Char} (h : IsGap chars gap mark) :
    ∀ c ∈ (CToken.textOf gap).head?, chars.word c = false := by
  intro c hc
  cases gap with
  | nil => cases hc
  | cons token gap =>
    have hslash : chars.word '/' = false := chars.word_ascii _ (by decide)
    cases token with
    | code d =>
      obtain rfl : d = c := Option.some.inj hc
      have hspace := h.blank _ List.mem_cons_self d rfl
      cases hword : chars.word d with
      | false => rfl
      | true => exact hspace.symm.trans (chars.disjoint d hword)
    | literal quote pieces => exact absurd rfl (h.comment _ List.mem_cons_self quote pieces)
    | lineComment body =>
      obtain rfl : '/' = c := Option.some.inj hc
      exact hslash
    | blockComment body =>
      obtain rfl : '/' = c := Option.some.inj hc
      exact hslash

/-- A gap with a comment does not end with `union` and blanks, nor does what is before it. -/
theorem IsGap.not_blanks {front start blanks : List Char} {gap : List CToken} {mark : Char} (h : IsGap chars gap mark)
    (hblanks : ¬ onlyBlanks chars gap = true)
    (htext : front ++ ("union".toList ++ CToken.textOf gap) = start ++ ("union".toList ++ blanks)) :
    ¬ ∀ c ∈ blanks, chars.space c = true := by
  intro hspaces
  have hnot : ¬ ∀ c ∈ CToken.textOf gap, chars.space c = true := fun hall => hblanks (List.all_eq_true.mpr hall)
  rw [← List.append_assoc] at htext
  obtain ⟨more, -, hgap⟩ | ⟨more, -, hgap⟩ := List.append_eq_append_iff.mp htext
  · exact h.last more blanks hgap hspaces
  · obtain ⟨tail, -, htail⟩ | ⟨tail, hunion, htail⟩ := List.append_eq_append_iff.mp hgap
    · exact hnot fun c hc => hspaces c (by rw [htail]; exact List.mem_append_right _ hc)
    · cases tail with
      | nil => exact hnot fun c hc => hspaces c (by rw [htail] at hc; exact hc)
      | cons c tail =>
        have hword : isNameChar c = true := by
          have hc : c ∈ "union".toList := by
            rw [hunion]
            exact List.mem_append_right _ List.mem_cons_self
          exact List.all_eq_true.mp (show ("union".toList.all isNameChar) = true by decide) c hc
        have hapart := h.head_apart c (by rw [htail]; rfl)
        rw [word_of_isNameChar hword] at hapart
        cases hapart

/-- One text after the other. -/
def followedBy (done rest : List Char × List (List Char × List Char)) : List Char × List (List Char × List Char) :=
  (done.1 ++ rest.1, done.2 ++ rest.2)

section

variable (chars) (structName : List Char)

mutual

/-- **What the loop makes of a member** behind so many unions. -/
def outcome : Nat → StructMember → List Char × List (List Char × List Char)
  | _, .plain front declared => (front ++ (declared.text ++ [';']), [])
  | n, .nested front members trailing declared =>
    let done := outcomes n members
    (front ++ '\x7b' :: (done.1 ++ (trailing ++ '\x7d' :: (declared.text ++ [';']))), done.2)
  | n, .union front gap members trailing declared =>
    if onlyBlanks chars gap then
      let read := readDeclared chars declared.text
      let name := unionName structName (n + 1)
      (front ++ (name ++ ' ' :: (read.1 ++ ';' :: leftOver read.2)),
        [(name, unionDefinition name (textOf members ++ trailing))])
    else
      let done := outcomes n members
      (front ++ ("union".toList ++ (CToken.textOf gap ++
        '\x7b' :: (done.1 ++ (trailing ++ '\x7d' :: (declared.text ++ [';']))))), done.2)

/-- The same for several members. -/
def outcomes : Nat → List StructMember → List Char × List (List Char × List Char)
  | _, [] => ([], [])
  | n, member :: members =>
    let first := outcome n member
    followedBy first (outcomes (n + first.2.length) members)

end

variable {chars} {structName}

/-- Outcomes are set behind each other in any order of the joints. -/
theorem followedBy_assoc (first second third : List Char × List (List Char × List Char)) :
    followedBy (followedBy first second) third = followedBy first (followedBy second third) := by
  simp only [followedBy, List.append_assoc]

/-- The loop copies a text in which no union begins. -/
theorem liftLoop_passed {fuel n : Nat} {before : Option Char} {text rest : List Char}
    (h : Passed chars before text rest) :
    liftLoop chars structName fuel n before (text ++ rest) =
      (liftLoop chars structName fuel n (Pattern.lastOr before text) rest).map (followedBy (text, [])) := by
  cases fuel with
  | zero => rfl
  | succ fuel =>
    rw [liftLoop, liftLoop, searchUnion_append h]
    cases searchUnion chars (Pattern.lastOr before text) rest with
    | none => rfl
    | some found =>
      obtain ⟨front, after⟩ := found
      rw [Option.map_some]
      dsimp only
      cases findBraceBalancedEnd 1 after with
      | none => rfl
      | some body =>
        dsimp only
        rw [Option.map_map]
        simp only [Function.comp_def, followedBy, List.append_assoc, List.nil_append]

/-- The last character before a place is read on through both texts. -/
theorem lastOr_append (text' : List Char) : ∀ (text : List Char) (before : Option Char),
    Pattern.lastOr before (text ++ text') = Pattern.lastOr (Pattern.lastOr before text) text'
  | [], _ => rfl
  | c :: text, before => by rw [List.cons_append, Pattern.lastOr_cons, Pattern.lastOr_cons, lastOr_append text' text]

/-- If a text ends in some kind of character, so does what is before its end. -/
theorem any_lastOr {p : Char → Bool} {before : Option Char} {text : List Char} (h : text.getLast?.any p = true) :
    (Pattern.lastOr before text).any p = true := by
  unfold Pattern.lastOr
  cases hlast : text.getLast? with
  | none =>
    rw [hlast] at h
    cases h
  | some c =>
    rw [hlast] at h
    exact h

/-- If it does not, and what is before it does not, then neither does what is before its end. -/
theorem any_lastOr_eq_false {p : Char → Bool} {before : Option Char} {text : List Char}
    (h : text.getLast?.any p = false) (hbefore : before.any p = false) : (Pattern.lastOr before text).any p = false := by
  unfold Pattern.lastOr
  cases hlast : text.getLast? with
  | none => exact hbefore
  | some c =>
    rw [hlast] at h
    exact h

/-- Behind a mark the last character is the mark. -/
theorem lastOr_mark (before : Option Char) (text : List Char) (c : Char) : Pattern.lastOr before (text ++ [c]) =
    some c := by
  rw [lastOr_append, Pattern.lastOr_cons, Pattern.lastOr_nil]

variable (chars) (structName) in
/-- **The loop goes through a text** and on behind it, with what it has made of it. -/
def Traverses (n : Nat) (before : Option Char) (text : List Char) (done : List Char × List (List Char × List Char)) :
    Prop := ∀ fuel rest, liftLoop chars structName (fuel + done.2.length) n before (text ++ rest) =
  (liftLoop chars structName fuel (n + done.2.length) (Pattern.lastOr before text) rest).map (followedBy done)

/-- The loop goes through two texts one after the other, counting on. -/
theorem Traverses.append {n : Nat} {before : Option Char} {text text' : List Char}
    {done done' : List Char × List (List Char × List Char)} (h : Traverses chars structName n before text done)
    (h' : Traverses chars structName (n + done.2.length) (Pattern.lastOr before text) text' done') :
    Traverses chars structName n before (text ++ text') (followedBy done done') := by
  intro fuel rest
  have hlength : (followedBy done done').2.length = done'.2.length + done.2.length := by
    rw [followedBy, List.length_append, Nat.add_comm]
  rw [hlength, ← Nat.add_assoc, List.append_assoc, h, h', Option.map_map, lastOr_append, Nat.add_assoc n,
    Nat.add_comm done.2.length]
  refine congrArg (Option.map · _) (funext fun last => ?_)
  exact (followedBy_assoc done done' last).symm

/-- It goes through a text in which no union begins by copying it. -/
theorem Traverses.of_passed {n : Nat} {before : Option Char} {text : List Char}
    (h : ∀ rest, Passed chars before text rest) :
    Traverses chars structName n before text (text, []) := fun _ rest => liftLoop_passed (h rest)

/-- A member ends with its semicolon. -/
theorem lastOr_text (before : Option Char) (member : StructMember) : Pattern.lastOr before member.text = some ';' := by
  obtain ⟨text, htext⟩ : ∃ text, member.text = text ++ [';'] := by
    cases member with
    | plain front declared => exact ⟨front ++ declared.text, by rw [StructMember.text, List.append_assoc]⟩
    | nested front members trailing declared =>
      exact ⟨front ++ '\x7b' :: (textOf members ++ (trailing ++ '\x7d' :: declared.text)), by
        simp only [StructMember.text, List.append_assoc, List.cons_append]⟩
    | union front gap members trailing declared =>
      exact ⟨front ++ ("union".toList ++ (CToken.textOf gap ++
        '\x7b' :: (textOf members ++ (trailing ++ '\x7d' :: declared.text)))), by
          simp only [StructMember.text, List.append_assoc, List.cons_append]⟩
  rw [htext, lastOr_mark]

/-- Up to a semicolon or a closing brace. -/
theorem Traverses.mark {n : Nat} {before : Option Char} {text : List Char} {c : Char} (hfree : BraceFree text)
    (hc : c = ';' ∨ c = '\x7d') : Traverses chars structName n before (text ++ [c]) (text ++ [c], []) := by
  refine .of_passed fun rest => passed_mark hfree ?_ ?_ ?_
  · rcases hc with rfl | rfl <;> decide
  · rcases hc with rfl | rfl <;> exact chars.space_ascii _ (by decide)
  · rcases hc with rfl | rfl <;> decide

/-- What has members that are gone through. -/
theorem Traverses.braces {n : Nat} {before : Option Char} {front inner trailing after : List Char}
    {done : List Char × List (List Char × List Char)} (hfront : BraceFree front) (htrailing : BraceFree trailing)
    (hafter : BraceFree after)
    (hword : ∀ start blanks, front = start ++ ("union".toList ++ blanks) → (∀ c ∈ blanks, chars.space c = true) →
      (Pattern.lastOr before start).any chars.word = true)
    (hinner : Traverses chars structName n (some '\x7b') inner done) :
    Traverses chars structName n before (front ++ '\x7b' :: (inner ++ (trailing ++ '\x7d' :: (after ++ [';']))))
      (front ++ '\x7b' :: (done.1 ++ (trailing ++ '\x7d' :: (after ++ [';']))), done.2) := by
  have hopen : Traverses chars structName n before (front ++ ['\x7b']) (front ++ ['\x7b'], []) :=
    .of_passed fun rest => passed_brace hfront hword
  have hinner' : Traverses chars structName n (Pattern.lastOr before (front ++ ['\x7b'])) inner done := by
    rw [lastOr_mark]
    exact hinner
  have hall := (hopen.append hinner').append ((Traverses.mark htrailing (.inr rfl)).append (.mark hafter (.inl rfl)))
  simpa only [followedBy, List.append_assoc, List.cons_append, List.nil_append, List.singleton_append, List.append_nil]
    using hall

/-- An anonymous union with blanks before its brace. -/
theorem Traverses.union {n : Nat} {before : Option Char} {front blanks body text : List Char} (hfront : BraceFree front)
    (hword : (Pattern.lastOr before front).any chars.word = false) (hblanks : ∀ c ∈ blanks, chars.space c = true)
    (hbody : Closed body) (hfree : BraceFree text) (hsemicolon : ∀ c ∈ text, c ≠ ';') :
    Traverses chars structName n before
      (front ++ ("union".toList ++ (blanks ++ '\x7b' :: (body ++ '\x7d' :: (text ++ [';'])))))
      (front ++ (unionName structName (n + 1) ++ ' ' :: ((readDeclared chars text).1 ++
          ';' :: leftOver (readDeclared chars text).2)),
        [(unionName structName (n + 1), unionDefinition (unionName structName (n + 1)) body)]) := by
  intro fuel rest
  have htext : front ++ ("union".toList ++ (blanks ++ '\x7b' :: (body ++ '\x7d' :: (text ++ [';'])))) ++ rest =
      front ++ ("union".toList ++ (blanks ++ '\x7b' :: (body ++ '\x7d' :: (text ++ ';' :: rest)))) := by
    simp only [List.append_assoc, List.cons_append, List.nil_append]
  have hfound := searchUnion_found (unionAt_of_blanks hword hblanks (body ++ '\x7d' :: (text ++ ';' :: rest)))
    (List.cons_ne_nil 'u' _)
  obtain ⟨hname, hleft⟩ : _ ∧ _ := @readName_append chars _ hsemicolon rest
  have hpassed : ∀ before, Passed chars before (leftOver (readDeclared chars text).2) rest := by
    intro before
    unfold leftOver
    split
    · intro front back hnil hback
      exact absurd (List.append_eq_nil_iff.mp hnil.symm).2 hback
    · refine passed_mark (fun c hc => hfree c (readDeclared_subset hc)) (by decide) ?_ (by decide)
      exact chars.space_ascii _ (by decide)
  have hlast : ∀ left, left = leftOver (readDeclared chars text).2 →
      Pattern.lastOr (Pattern.lastOr (some '\x7d') ((text ++ ';' :: rest).take ((text ++ ';' :: rest).length -
        (left ++ rest).length))) left = some ';' := by
    rintro left hleft
    unfold leftOver at hleft
    split at hleft
    · have htake : (text ++ ';' :: rest).take ((text ++ ';' :: rest).length - rest.length) = text ++ [';'] := by
        have hlength : (text ++ ';' :: rest).length - rest.length = (text ++ [';']).length := by
          simp only [List.length_append, List.length_cons, List.length_nil]
          omega
        rw [hlength, show text ++ ';' :: rest = (text ++ [';']) ++ rest by simp, List.take_left]
      rw [hleft, List.nil_append, htake, Pattern.lastOr_nil, lastOr_mark]
    · rw [hleft, lastOr_mark]
  have hend : Pattern.lastOr before
      (front ++ ("union".toList ++ (blanks ++ '\x7b' :: (body ++ '\x7d' :: (text ++ [';']))))) = some ';' := by
    rw [show front ++ ("union".toList ++ (blanks ++ '\x7b' :: (body ++ '\x7d' :: (text ++ [';'])))) =
      (front ++ ("union".toList ++ (blanks ++ '\x7b' :: (body ++ '\x7d' :: text)))) ++ [';'] by simp, lastOr_mark]
  rw [htext, liftLoop_passed (passed_union hfront hblanks), hend]
  show (liftLoop chars structName (fuel + 1) n _ _).map _ = _
  rw [liftLoop, hfound]
  dsimp only
  rw [hbody.end]
  dsimp only
  rw [hname, hleft, liftLoop_passed (hpassed _), hlast _ rfl, Option.map_map, Option.map_map]
  refine congrArg (Option.map · _) (funext fun last => ?_)
  simp only [Function.comp_def, followedBy, List.append_assoc, List.cons_append, List.nil_append]

mutual

/-- It goes through a member with the outcome that was defined for it, by recursion on the member.
-/
theorem traverses_text : ∀ {member : StructMember} {n : Nat} {before : Option Char}, member.WellFormed chars →
    before.any chars.word = false → Traverses chars structName n before member.text (outcome chars structName n member)
  | .plain front declared, n, before, h, _ => by
    have hmark : Traverses chars structName n before (front ++ declared.text ++ [';'])
        (front ++ declared.text ++ [';'], []) :=
      .mark (braceFree_append h.1 h.2.braceFree) (.inl rfl)
    rw [StructMember.text, outcome]
    simpa only [List.append_assoc] using hmark
  | .nested front members trailing declared, n, before, h, hbefore => by
    rw [StructMember.text, outcome]
    refine .braces h.1.1 h.2.2.1 h.2.2.2.braceFree ?_ (traverses_textOf h.2.1.1 ?_)
    · intro start blanks hfront hblanks
      exact any_lastOr (h.1.2 start blanks hfront hblanks)
    · exact chars.word_ascii _ (by decide)
  | .union front gap members trailing declared, n, before, h, hbefore => by
    have hword : (Pattern.lastOr before front).any chars.word = false := any_lastOr_eq_false h.1.2.1 hbefore
    rw [StructMember.text, outcome]
    split
    · rename_i hblanks
      have hbody : Closed (textOf members ++ trailing) := (closed_textOf h.2.1.1).append h.2.2.1.closed
      have hall := @Traverses.union chars structName n _ _ _ _ _ h.1.1 hword
        (List.all_eq_true.mp hblanks) hbody h.2.2.2.braceFree fun c hc => (h.2.2.2.free c hc).2.2
      simpa only [List.append_assoc] using hall
    · rename_i hcomment
      have hfront := braceFree_append h.1.1 (braceFree_append braceFree_union h.1.2.2.braceFree)
      have hall := @Traverses.braces chars structName n before _ _ _ _ _ hfront h.2.2.1
        h.2.2.2.braceFree ?_ (traverses_textOf h.2.1.1 ?_)
      · simpa only [List.append_assoc] using hall
      · intro start blanks htext hspaces
        exact absurd hspaces (h.1.2.2.not_blanks hcomment htext)
      · exact chars.word_ascii _ (by decide)

/-- It goes through several members with the outcome of each. -/
theorem traverses_textOf : ∀ {members : List StructMember} {n : Nat} {before : Option Char},
    AllWellFormed chars members → before.any chars.word = false →
      Traverses chars structName n before (textOf members) (outcomes chars structName n members)
  | [], _, _, _, _ => fun _ _ => Option.map_id'.symm
  | member :: members, n, before, h, hbefore => by
    rw [textOf, outcomes]
    refine (traverses_text h.1 hbefore).append (traverses_textOf h.2 ?_)
    rw [lastOr_text]
    exact chars.word_ascii _ (by decide)

end

/-! ## The passes -/

/-- A union that is found leaves less than there was. -/
theorem searchUnion_length : ∀ {text : List Char} {before : Option Char} {front after : List Char},
    searchUnion chars before text = some (front, after) → after.length < text.length
  | [], _, _, _, h => by cases h
  | c :: text, before, front, after, h => by
    rw [searchUnion] at h
    split at h
    · rename_i found hfound
      obtain ⟨-, blanks, htext, -⟩ := unionAt_eq_some hfound
      obtain ⟨-, rfl⟩ : [] = front ∧ found = after := by simpa using h
      rw [htext]
      simp only [List.length_append, List.length_cons]
      omega
    · obtain ⟨⟨front', after'⟩, hfound, heq⟩ := Option.map_eq_some_iff.mp h
      obtain ⟨-, rfl⟩ : c :: front' = front ∧ after' = after := by simpa using heq
      exact Nat.lt_succ_of_lt (searchUnion_length hfound)

/-- So does the end of its braces. -/
theorem findBraceBalancedEnd_length : ∀ {text : List Char} {depth : Nat} {body rest : List Char},
    findBraceBalancedEnd depth text = some (body, rest) → rest.length < text.length
  | [], _, _, _, h => by cases h
  | c :: text, depth, body, rest, h => by
    have hmore : ∀ {depth : Nat}, ((findBraceBalancedEnd depth text).map fun found => (c :: found.1, found.2)) =
        some (body, rest) → rest.length < (c :: text).length := by
      intro depth h
      obtain ⟨⟨body', rest'⟩, hfound, heq⟩ := Option.map_eq_some_iff.mp h
      obtain ⟨-, rfl⟩ : c :: body' = body ∧ rest' = rest := by simpa using heq
      exact Nat.lt_succ_of_lt (findBraceBalancedEnd_length hfound)
    rw [findBraceBalancedEnd] at h
    split at h
    · exact hmore h
    · split at h
      · split at h
        · obtain ⟨-, rfl⟩ : [] = body ∧ text = rest := by simpa using h
          exact Nat.lt_succ_self _
        · exact hmore h
      · exact hmore h

/-- And reading its name leaves no more. -/
theorem readName_length (text : List Char) : (skipSemicolon chars (readName chars text).2).length ≤ text.length := by
  have hskip : ∀ rest : List Char, (skipSemicolon chars rest).length ≤ rest.length := by
    intro rest
    have hdrop := (List.dropWhile_suffix (l := rest) chars.space).length_le
    unfold skipSemicolon
    split
    · rename_i more hmore
      rw [hmore, List.length_cons] at hdrop
      omega
    · exact hdrop
  refine (hskip _).trans ?_
  unfold readName
  dsimp only
  split
  · exact (List.dropWhile_suffix _).length_le.trans (List.dropWhile_suffix _).length_le
  · exact (List.dropWhile_suffix _).length_le

/-- **The loop ends**: the text that is left gets shorter with each pass. -/
theorem liftLoop_isSome : ∀ {fuel n : Nat} {before : Option Char} {text : List Char}, text.length < fuel →
    (liftLoop chars structName fuel n before text).isSome
  | 0, _, _, _, h => absurd h (Nat.not_lt_zero _)
  | fuel + 1, n, before, text, h => by
    rw [liftLoop]
    split
    · rfl
    · rename_i front after hfound
      split
      · rfl
      · rename_i body rest hbody
        rw [Option.isSome_map]
        apply liftLoop_isSome
        have hafter := searchUnion_length hfound
        have hrest := findBraceBalancedEnd_length hbody
        have hread : (skipSemicolon chars (readName chars rest).2).length ≤ rest.length := readName_length rest
        omega

/-- So the loop always ends within its bound. -/
theorem liftAnonymousUnions_isSome (text : List Char) : (liftAnonymousUnions chars structName text).isSome := by
  unfold liftAnonymousUnions
  split
  · rfl
  · exact liftLoop_isSome (Nat.lt_succ_self _)

mutual

/-- A member has no more unions than characters. -/
theorem outcome_length : ∀ (member : StructMember) (n : Nat),
    (outcome chars structName n member).2.length ≤ member.text.length
  | .plain _ _, _ => Nat.zero_le _
  | .nested front members trailing declared, n => by
    have ih := outcomes_length members n
    rw [outcome, StructMember.text]
    simp only [List.length_append, List.length_cons]
    omega
  | .union front gap members trailing declared, n => by
    have ih := outcomes_length members n
    rw [outcome, StructMember.text]
    split
    · simp only [List.length_append, List.length_cons, List.length_nil]
      omega
    · simp only [List.length_append, List.length_cons]
      omega

/-- Nor have several members. -/
theorem outcomes_length : ∀ (members : List StructMember) (n : Nat),
    (outcomes chars structName n members).2.length ≤ (textOf members).length
  | [], _ => Nat.le_refl 0
  | member :: members, n => by
    have hfirst := outcome_length member n
    have hrest := outcomes_length members (n + (outcome chars structName n member).2.length)
    rw [outcomes, textOf, followedBy, List.length_append, List.length_append]
    omega

end

/-- **What the code makes of a struct.** -/
theorem liftAnonymousUnions_text (hname : structName ≠ []) {member : StructMember} (h : member.WellFormed chars) :
    liftAnonymousUnions chars structName member.text = some (outcome chars structName 0 member) := by
  have hlength : (outcome chars structName 0 member).2.length ≤ member.text.length := outcome_length member 0
  obtain ⟨fuel, hfuel⟩ : ∃ fuel, member.text.length + 1 = (fuel + 1) + (outcome chars structName 0 member).2.length :=
    ⟨member.text.length - (outcome chars structName 0 member).2.length, by omega⟩
  have hrun := (traverses_text h rfl : Traverses chars structName 0 none _ _) (fuel + 1) []
  rw [List.append_nil] at hrun
  rw [liftAnonymousUnions, if_neg hname, hfuel, hrun]
  show some (followedBy _ ([], [])) = _
  rw [followedBy, List.append_nil, List.append_nil]

/-! ## Counting -/

variable (chars) in
/-- The characters of what is declared of a lifted union that are no blanks. -/
def keptCount : Declared → Nat
  | .unnamed _ => 1
  | .named first more => nonblanks chars (Declared.named first more).text

/-- Dropping blanks leaves everything else. -/
theorem nonblanks_dropWhile : ∀ text : List Char, nonblanks chars (text.dropWhile chars.space) = nonblanks chars text
  | [] => rfl
  | c :: text => by
    cases hc : chars.space c with
    | true =>
      have hcount : nonblanks chars (c :: text) = nonblanks chars text :=
        List.countP_cons_of_neg (by rw [hc]; decide)
      rw [List.dropWhile_cons_of_pos hc, nonblanks_dropWhile text, hcount]
    | false => rw [List.dropWhile_cons_of_neg (by rw [hc]; exact Bool.false_ne_true)]

/-- So does trimming. -/
theorem nonblanks_trimmedText (text : List Char) : nonblanks chars (trimmedText chars text) = nonblanks chars text := by
  have hreverse : ∀ text : List Char, nonblanks chars text.reverse = nonblanks chars text :=
    fun text => List.countP_reverse
  rw [trimmedText, hreverse, nonblanks_dropWhile, hreverse, nonblanks_dropWhile]

/-- What is declared is kept, but for blanks. -/
theorem KeepsDeclared.nonblanks {declared declared' : Declared} (h : KeepsDeclared chars declared declared') :
    nonblanks chars declared'.text = keptCount chars declared := by
  have hu : Assure.nonblanks chars ['u'] = 1 := by
    have hspace : chars.space 'u' = false := space_of_isNameChar (by decide)
    rw [Assure.nonblanks, List.countP_cons_of_pos (by rw [hspace]; rfl), List.countP_nil]
  rw [← nonblanks_trimmedText, h.text]
  cases declared with
  | unnamed gap => exact hu
  | named first more => exact nonblanks_trimmedText _

/-- Behind the blanks of a gap there is no name. -/
theorem IsGap.no_name {gap : List CToken} (hblank : ∀ token ∈ gap, ∀ c, token = .code c → chars.space c = true)
    (hcomment : ∀ token ∈ gap, ∀ quote pieces, token ≠ .literal quote pieces) :
    ((CToken.textOf gap).dropWhile chars.space).head?.any isNameStart = false := by
  induction gap with
  | nil => rfl
  | cons token gap ih =>
    have hslash : ¬ chars.space '/' = true := by rw [chars.space_ascii _ (by decide)]; decide
    have hcut : ∀ more : List Char, (('/' :: more).dropWhile chars.space).head?.any isNameStart = false := by
      intro more
      rw [List.dropWhile_cons_of_neg hslash]
      rfl
    have hrest := ih (fun t ht => hblank t (List.mem_cons_of_mem token ht))
      fun t ht => hcomment t (List.mem_cons_of_mem token ht)
    cases token with
    | code c =>
      have hspace := hblank _ List.mem_cons_self c rfl
      have hdrop : (CToken.textOf (.code c :: gap)).dropWhile chars.space = (CToken.textOf gap).dropWhile chars.space :=
        List.dropWhile_cons_of_pos hspace
      rw [hdrop]
      exact hrest
    | literal quote pieces => exact absurd rfl (hcomment _ List.mem_cons_self quote pieces)
    | lineComment body => exact hcut _
    | blockComment body => exact hcut _

/-- What is read has all characters of a text, a semicolon for what is left, and a `u` if there is no name. -/
theorem nonblanks_readDeclared (text : List Char) :
    nonblanks chars (readDeclared chars text).1 + nonblanks chars (leftOver (readDeclared chars text).2) =
      nonblanks chars text + (if (text.dropWhile chars.space).head?.any isNameStart then 0 else 1) +
        if (readDeclared chars text).2 = [] then 0 else 1 := by
  have hleft : ∀ rest : List Char, nonblanks chars (leftOver rest) =
      nonblanks chars rest + if rest = [] then 0 else 1 := by
    intro rest
    unfold leftOver
    split
    · rename_i hnil
      rw [hnil]
      rfl
    · have hmark : nonblanks chars [';'] = 1 := by
        have hspace : chars.space ';' = false := chars.space_ascii _ (by decide)
        rw [nonblanks, List.countP_cons_of_pos (by rw [hspace]; rfl), List.countP_nil]
      rw [nonblanks_append, hmark]
  have hu : nonblanks chars ['u'] = 1 := by
    have hspace : chars.space 'u' = false := space_of_isNameChar (by decide)
    rw [nonblanks, List.countP_cons_of_pos (by rw [hspace]; rfl), List.countP_nil]
  rw [hleft]
  unfold readDeclared
  dsimp only
  split
  · have hsplit := @nonblanks_append chars ((text.dropWhile chars.space).takeWhile isNameChar)
      ((text.dropWhile chars.space).dropWhile isNameChar)
    rw [List.takeWhile_append_dropWhile, nonblanks_dropWhile] at hsplit
    dsimp only
    rw [nonblanks_dropWhile]
    omega
  · dsimp only
    rw [hu, nonblanks_dropWhile]
    omega

/-- **A name with blanks around it is read as it stands.** -/
theorem Declarator.WellFormed.readDeclared {d : Declarator} (h : d.WellFormed)
    (hbefore : ∀ c ∈ d.before, chars.space c = true) (rest : List Char) (hrest : rest.head?.any isNameChar = false) :
    readDeclared chars (d.before ++ (d.name ++ rest)) = (d.name, rest.dropWhile chars.space) := by
  obtain ⟨c, name, hname⟩ : ∃ c name, d.name = c :: name := by
    cases hd : d.name with
    | nil =>
      have hstart := h.start
      rw [hd] at hstart
      cases hstart
    | cons c name => exact ⟨c, name, rfl⟩
  have hc : isNameStart c = true := by
    have hstart := h.start
    rwa [hname] at hstart
  have hspace : chars.space c = false := space_of_isNameChar (isNameChar_of_start hc)
  have hdrop : (d.before ++ (d.name ++ rest)).dropWhile chars.space = d.name ++ rest := by
    rw [List.dropWhile_append_of_pos hbefore, hname, List.cons_append]
    exact List.dropWhile_cons_of_neg (by rw [hspace]; exact Bool.false_ne_true)
  have htake : (d.name ++ rest).takeWhile isNameChar = d.name := by
    rw [List.takeWhile_append_of_pos h.word]
    cases rest with
    | nil => simp
    | cons e rest =>
      rw [List.takeWhile_cons_of_neg (by rw [show isNameChar e = false from hrest]; exact Bool.false_ne_true),
        List.append_nil]
  have hafter : (d.name ++ rest).dropWhile isNameChar = rest := by
    rw [List.dropWhile_append_of_pos h.word]
    cases rest with
    | nil => rfl
    | cons e rest =>
      exact List.dropWhile_cons_of_neg (by rw [show isNameChar e = false from hrest]; exact Bool.false_ne_true)
  unfold Assure.readDeclared
  dsimp only
  rw [hdrop, htake, hafter, if_pos]
  rw [hname, List.cons_append, List.head?_cons]
  exact hc

/-- What stands before a name is left over with it. -/
theorem Declarator.WellFormed.left_of_before {d : Declarator} (h : d.WellFormed)
    (hbefore : ¬ ∀ c ∈ d.before, chars.space c = true) (rest : List Char) :
    (Assure.readDeclared chars (d.before ++ (d.name ++ rest))).2 ≠ [] := by
  have hname : ∀ {front : List Char}, (front ++ (d.name ++ rest)).dropWhile chars.space ≠ [] := by
    intro front hnil
    have hstart := h.start
    cases hd : d.name with
    | nil =>
      rw [hd] at hstart
      cases hstart
    | cons c name =>
      have hc := List.dropWhile_eq_nil_iff.mp hnil c (by simp [hd])
      rw [hd] at hstart
      rw [space_of_isNameChar (isNameChar_of_start hstart)] at hc
      cases hc
  have hleft : d.before.dropWhile chars.space ≠ [] := fun hnil => hbefore (List.dropWhile_eq_nil_iff.mp hnil)
  have hdrop : (d.before ++ (d.name ++ rest)).dropWhile chars.space = d.before.dropWhile chars.space ++
      (d.name ++ rest) := by
    rw [List.dropWhile_append, if_neg (by rwa [List.isEmpty_iff])]
  unfold Assure.readDeclared
  dsimp only
  split
  · -- the name that is read ends before the declarator's name does
    have hapart : (d.before.dropWhile chars.space).dropWhile isNameChar ≠ [] := by
      intro hnil
      have hlast := List.dropWhile_eq_nil_iff.mp hnil _ (List.getLast_mem hleft)
      have hsame : (d.before.dropWhile chars.space).getLast? = d.before.getLast? := by
        have hsplit := List.takeWhile_append_dropWhile (p := chars.space) (l := d.before)
        conv => rhs; rw [← hsplit]
        rw [List.getLast?_append, List.getLast?_eq_some_getLast hleft]
        rfl
      have hbefore := h.before_apart
      rw [← hsame, List.getLast?_eq_some_getLast hleft] at hbefore
      exact Bool.false_ne_true (hbefore.symm.trans hlast)
    dsimp only
    rw [hdrop, List.dropWhile_append, if_neg (by rwa [List.isEmpty_iff])]
    exact hname
  · dsimp only
    rw [hdrop]
    exact List.append_ne_nil_of_left_ne_nil hleft _

variable (chars) in
/-- The name of a lifted union: `u` if nothing was declared. -/
def liftedName : Declared → List Char
  | .unnamed _ => ['u']
  | .named first _ => first.name

/-- After a declarator no name goes on. -/
theorem Declared.WellFormed.after_apart {first : Declarator} {more : List Declarator}
    (h : (Declared.named first more).WellFormed chars) :
    (first.after ++ more.flatMap fun d => ',' :: d.text).head?.any isNameChar = false := by
  have hfirst := (h first List.mem_cons_self).after_apart
  cases hafter : first.after with
  | cons c after =>
    rw [hafter] at hfirst
    exact hfirst
  | nil =>
    cases more with
    | nil => rfl
    | cons d more => rfl

/-- **A plain name is read with nothing left.** -/
theorem Declared.IsPlain.readDeclared {declared : Declared} (hplain : declared.IsPlain chars)
    (h : declared.WellFormed chars) : Assure.readDeclared chars declared.text = (liftedName declared, []) := by
  cases declared with
  | unnamed gap =>
    have hdrop : (CToken.textOf gap).dropWhile chars.space = [] := List.dropWhile_eq_nil_iff.mpr hplain
    show Assure.readDeclared chars (CToken.textOf gap) = _
    unfold Assure.readDeclared
    dsimp only
    rw [hdrop]
    rfl
  | named first more =>
    obtain ⟨rfl, hbefore, hafter⟩ := hplain
    have hread := (h first List.mem_cons_self).readDeclared hbefore _ h.after_apart
    have htext : (Declared.named first []).text = first.before ++ (first.name ++ (first.after ++ [])) := by
      rw [Declared.text, Declarator.text]
      simp only [List.flatMap_nil, List.append_nil]
    rw [htext]
    refine hread.trans ?_
    rw [List.flatMap_nil, List.append_nil, List.dropWhile_eq_nil_iff.mpr hafter]
    rfl

/-- **Anything else leaves characters over.** -/
theorem Declared.WellFormed.keptCount_le {declared : Declared} (h : declared.WellFormed chars) :
    keptCount chars declared ≤ nonblanks chars (Assure.readDeclared chars declared.text).1 +
        nonblanks chars (leftOver (Assure.readDeclared chars declared.text).2) ∧
      (keptCount chars declared = nonblanks chars (Assure.readDeclared chars declared.text).1 +
          nonblanks chars (leftOver (Assure.readDeclared chars declared.text).2) → declared.IsPlain chars) := by
  rw [nonblanks_readDeclared]
  cases declared with
  | unnamed gap =>
    have hno : ((CToken.textOf gap).dropWhile chars.space).head?.any isNameStart = false :=
        IsGap.no_name h.blank h.comment
    rw [keptCount, Declared.text, hno, if_neg Bool.false_ne_true]
    refine ⟨by omega, fun heq => ?_⟩
    exact nonblanks_eq_zero.mp (by omega)
  | named first more =>
    rw [keptCount]
    refine ⟨by omega, fun heq => ?_⟩
    have hleft : (Assure.readDeclared chars (Declared.named first more).text).2 = [] := by
      by_contra hne
      rw [if_neg hne] at heq
      omega
    have htext : (Declared.named first more).text =
        first.before ++ (first.name ++ (first.after ++ more.flatMap fun d => ',' :: d.text)) := by
      rw [Declared.text, Declarator.text]
      simp only [List.append_assoc]
    rw [htext] at hleft
    have hbefore : ∀ c ∈ first.before, chars.space c = true := by
      by_contra hbefore
      exact (h first List.mem_cons_self).left_of_before hbefore _ hleft
    rw [(h first List.mem_cons_self).readDeclared hbefore _ h.after_apart] at hleft
    have hblanks := List.dropWhile_eq_nil_iff.mp hleft
    refine ⟨?_, hbefore, fun c hc => hblanks c (List.mem_append_left _ hc)⟩
    cases more with
    | nil => rfl
    | cons d more =>
      have hcomma := hblanks ',' (List.mem_append_right _ (by simp))
      rw [chars.space_ascii _ (by decide)] at hcomma
      exact absurd hcomma (by decide)

end

end

end Assure
