import Assure.Library.FindAll
import Assure.Library.Tail
import Assure.Library.Taking
import Mathlib.Data.List.Count

/-!
# Cutting and replacing

What a text comes to when the matches of a pattern are cut out of it (`cutMatches`), and when a literal text is replaced
where it stands first (`replaceFirst`) or everywhere (`replaceText`). Cutting leaves a part of the text, and fewer of the
characters that every match has (`cutMatches_eq_or_lt`). A word without line breaks does not come into being where whole
beginnings of lines are cut out (`infix_of_infix_cutMatches`), nor where it is replaced itself (`not_infix_replaceText`).
-/

namespace Assure.Library

variable {α β : Type*}

/-! ## Parts of a text -/

/-- **A part of two texts** is a part of one of them or lies across the joint. -/
theorem infix_append_cases {w a b : List α} (h : w <:+: a ++ b) :
    w <:+: a ∨ w <:+: b ∨ ∃ u v, w = u ++ v ∧ v ≠ [] ∧ u ≠ [] ∧ u <:+ a ∧ v <+: b := by
  obtain ⟨front, back, heq⟩ := h
  rw [List.append_assoc] at heq
  rcases List.append_eq_append_iff.mp heq with ⟨x, rfl, hrest⟩ | ⟨x, rfl, rfl⟩
  · rcases List.append_eq_append_iff.mp hrest with ⟨y, rfl, rfl⟩ | ⟨y, rfl, rfl⟩
    · exact .inl ⟨front, y, (List.append_assoc _ _ _).trans rfl⟩
    · rcases eq_or_ne x [] with rfl | hx
      · exact .inr (.inl ⟨[], back, rfl⟩)
      · rcases eq_or_ne y [] with rfl | hy
        · exact .inl ⟨front, [], by rw [List.append_nil, List.append_nil]⟩
        · exact .inr (.inr ⟨x, y, rfl, hy, hx, List.suffix_append _ _, List.prefix_append _ _⟩)
  · exact .inr (.inl ⟨x, back, List.append_assoc _ _ _⟩)

/-- A part of two texts without the character between them. -/
theorem infix_append_cons_iff {w a b : List α} {x : α} (hx : x ∉ w) : w <:+: a ++ x :: b ↔ w <:+: a ∨ w <:+: b := by
  constructor
  · intro h
    rcases infix_append_cases h with ha | hb | ⟨u, v, rfl, hv, -, -, hprefix⟩
    · exact .inl ha
    · rcases List.infix_cons_iff.mp hb with hhead | htail
      · cases w with
        | nil => exact .inl (List.nil_infix)
        | cons c w =>
          obtain rfl := (List.cons_prefix_cons.mp hhead).1
          exact absurd List.mem_cons_self hx
      · exact .inr htail
    · cases v with
      | nil => exact absurd rfl hv
      | cons c v =>
        obtain rfl := (List.cons_prefix_cons.mp hprefix).1
        exact absurd (List.mem_append_right _ List.mem_cons_self) hx
  · intro h
    rcases h with ha | hb
    · exact ha.trans (List.infix_append' [] a (x :: b))
    · exact hb.trans (List.suffix_append (a ++ [x]) b |>.isInfix.trans
        (by rw [List.append_assoc]; exact List.infix_rfl))

/-! ## Matches cut out -/

section Cut

variable (match? : Option α → List α → Option (β × List α))

/-- **The text without the matches**, after so many characters of the last one. -/
def cutMatches (skip : Nat) (before : Option α) (text : List α) : List α :=
  (splitMatches match? skip before text).filterMap Sum.getLeft?

variable {match?} {skip : Nat} {before : Option α} {c x : α} {text rest : List α} {found : β}

/-- Nothing is cut out of nothing. -/
@[simp] theorem cutMatches_nil : cutMatches match? skip before [] = [] := by
  cases skip <;> rfl

/-- Where a match begins, what it covers is skipped. -/
theorem cutMatches_some (h : match? before (c :: text) = some (found, rest)) :
    cutMatches match? 0 before (c :: text) = cutMatches match? (text.length - rest.length) (some c) text := by
  rw [cutMatches, splitMatches, h]
  rfl

/-- Where none begins, the character stays. -/
theorem cutMatches_none (h : match? before (c :: text) = none) :
    cutMatches match? 0 before (c :: text) = c :: cutMatches match? 0 (some c) text := by
  rw [cutMatches, splitMatches, h]
  rfl

/-- **A character that every match has.** -/
def InMatches (match? : Option α → List α → Option (β × List α)) (x : α) : Prop :=
  ∀ before text found rest, match? before text = some (found, rest) → ∃ taken, text = taken ++ rest ∧ x ∈ taken

/-- A match covers a stretch of the text with the character in it, and the text goes on behind it.
-/
theorem InMatches.drop (h : InMatches match? x) (hmatch : match? before (c :: text) = some (found, rest)) :
    ∃ taken, c :: text = taken ++ rest ∧ x ∈ taken ∧ text.drop (text.length - rest.length) = rest := by
  obtain ⟨taken, htext, hx⟩ := h _ _ _ _ hmatch
  refine ⟨taken, htext, hx, ?_⟩
  cases taken with
  | nil => cases hx
  | cons d taken =>
    obtain ⟨-, hrest⟩ := List.cons.inj (htext.trans (List.cons_append))
    rw [hrest, List.length_append, Nat.add_sub_cancel, List.drop_left]

/-- What is left is a part of the text. -/
theorem cutMatches_sublist : ∀ (skip : Nat) (before : Option α) (text : List α),
    (cutMatches match? skip before text).Sublist (text.drop skip)
  | skip, _, [] => by
    rw [cutMatches_nil]
    exact List.nil_sublist _
  | skip + 1, _, c :: text => cutMatches_sublist skip (some c) text
  | 0, before, c :: text => by
    cases hmatch : match? before (c :: text) with
    | none =>
      rw [cutMatches_none hmatch]
      exact (cutMatches_sublist 0 (some c) text).cons_cons c
    | some way =>
      rw [cutMatches_some hmatch]
      exact ((cutMatches_sublist _ (some c) text).trans (List.drop_sublist _ _)).cons c

/-- **Where a match is cut out** there are fewer of a character that every match has. -/
theorem cutMatches_eq_or_lt [BEq α] [LawfulBEq α] (h : InMatches match? x) :
    ∀ (skip : Nat) (before : Option α) (text : List α),
      cutMatches match? skip before text = text.drop skip ∨
        (cutMatches match? skip before text).count x < (text.drop skip).count x
  | skip, _, [] => by
    rw [cutMatches_nil, List.drop_nil]
    exact .inl rfl
  | skip + 1, _, c :: text => cutMatches_eq_or_lt h skip (some c) text
  | 0, before, c :: text => by
    cases hmatch : match? before (c :: text) with
    | none =>
      rw [cutMatches_none hmatch, List.drop_zero, List.count_cons, List.count_cons]
      rcases cutMatches_eq_or_lt h 0 (some c) text with heq | hlt
      · exact .inl (by rw [heq, List.drop_zero])
      · rw [List.drop_zero] at hlt
        exact .inr (by omega)
    | some way =>
      obtain ⟨taken, htext, hx, hdrop⟩ := h.drop hmatch
      have hsublist : (cutMatches match? (text.length - way.2.length) (some c) text).Sublist _ :=
        cutMatches_sublist (text.length - way.2.length) (some c) text
      have hle := hsublist.count_le x
      rw [hdrop] at hle
      have hpos := List.count_pos_iff.mpr hx
      rw [cutMatches_some hmatch, List.drop_zero, htext, List.count_append]
      exact .inr (by omega)

end Cut

/-! ## Lines -/

section Lines

variable {match? : Option Char → List Char → Option (β × List Char)} {w : List Char}

/-- **A match begins where a line does.** -/
def AtLineStarts (match? : Option Char → List Char → Option (β × List Char)) : Prop :=
  ∀ c text, c ≠ '\n' → match? (some c) text = none

/-- Inside a line nothing is cut out in front of a line break. -/
theorem prefix_of_prefix_cutMatches (hstarts : AtLineStarts match?) (hw : '\n' ∉ w) {c : Char} (hc : c ≠ '\n')
    {text : List Char} (h : w <+: cutMatches match? 0 (some c) text) : w <+: text := by
  induction w generalizing c text with
  | nil => exact List.nil_prefix
  | cons d w ih =>
    obtain ⟨hd, hw⟩ := not_or.mp (mt List.mem_cons.mpr hw)
    cases text with
    | nil =>
      rw [cutMatches_nil] at h
      exact h
    | cons e text =>
      rw [cutMatches_none (hstarts c _ hc)] at h
      obtain ⟨rfl, hrest⟩ := List.cons_prefix_cons.mp h
      exact List.cons_prefix_cons.mpr ⟨rfl, ih hw (Ne.symm hd) hrest⟩

/-- **A word without line breaks does not come into being** where beginnings of lines are cut out. -/
theorem infix_of_infix_cutMatches (hstarts : AtLineStarts match?) (hw : '\n' ∉ w) :
    ∀ (skip : Nat) (before : Option Char) (text : List Char), w <:+: cutMatches match? skip before text → w <:+: text
  | _, _, [], h => by rwa [cutMatches_nil] at h
  | skip + 1, _, c :: text, h =>
    (infix_of_infix_cutMatches hstarts hw skip (some c) text h).trans (List.suffix_cons c text).isInfix
  | 0, before, c :: text, h => by
    cases hmatch : match? before (c :: text) with
    | some way =>
      rw [cutMatches_some hmatch] at h
      exact (infix_of_infix_cutMatches hstarts hw _ (some c) text h).trans (List.suffix_cons c text).isInfix
    | none =>
      rw [cutMatches_none hmatch] at h
      rcases List.infix_cons_iff.mp h with hhead | htail
      · cases w with
        | nil => exact List.nil_infix
        | cons d w =>
          obtain ⟨hd, hw⟩ := not_or.mp (mt List.mem_cons.mpr hw)
          obtain ⟨rfl, hrest⟩ := List.cons_prefix_cons.mp hhead
          have hprefix := prefix_of_prefix_cutMatches hstarts hw (Ne.symm hd) hrest
          exact (List.cons_prefix_cons.mpr ⟨rfl, hprefix⟩).isInfix
      · exact (infix_of_infix_cutMatches hstarts hw 0 (some c) text htail).trans (List.suffix_cons c text).isInfix

end Lines

/-! ## Patterns -/

namespace Pattern

variable {γ δ : Type}

/-- `^` where it stands for the beginning of a line. -/
def lineStart : Pattern Unit := fun cursor => if cursor.before.all (· = '\n') then [((), cursor)] else []

/-- The match at a place: what it finds and what follows it. -/
def matchAt (p : Pattern γ) (before : Option Char) (text : List Char) : Option (γ × List Char) :=
  (p ⟨before, text⟩).head?.map fun way => (way.1, way.2.rest)

/-- `re.sub(p, "", text)`, for a pattern that takes a character at least. -/
def cut (p : Pattern γ) (text : List Char) : List Char := cutMatches p.matchAt 0 none text

/-- **A pattern takes a character**, whatever else it takes. -/
def Uses (p : Pattern γ) (x : Char) : Prop :=
  ∀ cursor, ∀ way ∈ p cursor, ∃ taken, cursor.rest = taken ++ way.2.rest ∧ x ∈ taken

/-- A fixed text goes on by its length. -/
theorem Advances.lit (text : String) : Advances (lit text) := .chars text.toList

/-- Characters of a class go on by one at least. -/
theorem Advances.many1 (f : Char → Bool) : Advances (many1 f) := .bind (.one f) fun _ => .bind (.many f) fun _ => .pure _

/-- What may be left out goes on or stays. -/
theorem Advances.optional {p : Pattern Unit} (hp : Advances p) : Advances (optional p) := hp.orElse (.pure ())

/-- The start of a line takes no character. -/
theorem Advances.lineStart : Advances lineStart := by
  intro cursor way h
  rw [Pattern.lineStart] at h
  split at h
  · exact Advances.pure () cursor way h
  · cases h

/-- The end of a line takes no character. -/
theorem Advances.lineEnd : Advances lineEnd := by
  intro cursor way h
  rw [Pattern.lineEnd] at h
  split at h
  · exact Advances.pure () cursor way h
  · cases h

/-- A fixed text uses each of its characters. -/
theorem Uses.lit {text : String} {x : Char} (h : x ∈ text.toList) : Uses (lit text) x :=
  fun _ _ hway => ⟨text.toList, of_mem_chars hway, h⟩

/-- The character is taken at first. -/
theorem Uses.bind_left {p : Pattern γ} {f : γ → Pattern δ} {x : Char} (hp : Uses p x) (hf : ∀ a, Advances (f a)) :
    Uses (p >>= f) x := by
  intro cursor way h
  obtain ⟨first, hfirst, hway⟩ := mem_bind.mp h
  obtain ⟨taken, htaken, hx⟩ := hp cursor first hfirst
  obtain ⟨taken', htaken'⟩ := hf first.1 first.2 way hway
  exact ⟨taken ++ taken', by rw [htaken, ← htaken', List.append_assoc], List.mem_append_left _ hx⟩

/-- The character is taken later. -/
theorem Uses.bind_right {p : Pattern γ} {f : γ → Pattern δ} {x : Char} (hp : Advances p) (hf : ∀ a, Uses (f a) x) :
    Uses (p >>= f) x := by
  intro cursor way h
  obtain ⟨first, hfirst, hway⟩ := mem_bind.mp h
  obtain ⟨taken, htaken⟩ := hp cursor first hfirst
  obtain ⟨taken', htaken', hx⟩ := hf first.1 first.2 way hway
  exact ⟨taken ++ taken', by rw [← htaken, htaken', List.append_assoc], List.mem_append_right _ hx⟩

/-- A match is one of the ways in which the pattern fits. -/
theorem matchAt_eq_some {p : Pattern γ} {before : Option Char} {text rest : List Char} {found : γ}
    (h : p.matchAt before text = some (found, rest)) : ∃ after,
      (found, (⟨after, rest⟩ : Cursor)) ∈ p ⟨before, text⟩ := by
  obtain ⟨way, hway, heq⟩ := Option.map_eq_some_iff.mp h
  obtain ⟨rfl, rfl⟩ := Prod.mk.inj heq
  exact ⟨way.2.before, List.mem_of_head? hway⟩

/-- There is no match exactly if the pattern fits in no way. -/
theorem matchAt_eq_none {p : Pattern γ} {before : Option Char} {text : List Char} :
    p.matchAt before text = none ↔ p ⟨before, text⟩ = [] := by
  rw [matchAt, Option.map_eq_none_iff, List.head?_eq_none_iff]

/-- A character that a pattern uses lies in every match of it. -/
theorem Uses.inMatches {p : Pattern γ} {x : Char} (h : Uses p x) : InMatches p.matchAt x := by
  intro before text found rest hmatch
  obtain ⟨after, hmem⟩ := matchAt_eq_some hmatch
  exact h _ _ hmem

/-- **A pattern for the beginning of a line** matches nowhere else. -/
theorem lineStart_bind_eq_nil (f : Unit → Pattern γ) {c : Char} (hc : c ≠ '\n') (text : List Char) :
    (lineStart >>= f) ⟨some c, text⟩ = [] := by
  have hstart : lineStart ⟨some c, text⟩ = [] := if_neg fun h => hc (of_decide_eq_true h)
  rw [bind_apply, hstart, List.flatMap_nil]

/-- A pattern with the start of a line in front fits at starts of lines alone. -/
theorem atLineStarts (f : Unit → Pattern γ) : AtLineStarts (lineStart >>= f).matchAt :=
  fun _ text hc => matchAt_eq_none.mpr (lineStart_bind_eq_nil f hc text)

/-- There it is the pattern that follows. -/
theorem lineStart_bind (f : Unit → Pattern γ) {before : Option Char} (hbefore : before.all (· = '\n') = true)
    (text : List Char) : (lineStart >>= f) ⟨before, text⟩ = f () ⟨before, text⟩ := by
  have hstart : lineStart ⟨before, text⟩ = [((), ⟨before, text⟩)] := if_pos hbefore
  rw [bind_apply, hstart, List.flatMap_singleton]

/-! ## Repeated words -/

/-- **A repetition takes words** that the pattern takes. -/
theorem Takes.star {p : Pattern Unit} {rest : List Char} : ∀ {words : List (List Char)},
    (∀ word ∈ words, word ≠ [] ∧ ∀ rest, Takes p word () rest) → Takes (star p) words.flatten () rest
  | [], _ => fun before => ⟨before, mem_star_stop p _⟩
  | word :: words, h => by
    obtain ⟨⟨hne, hword⟩, hwords⟩ := List.forall_mem_cons.mp h
    intro before
    obtain ⟨middle, hmiddle⟩ := hword (words.flatten ++ rest) before
    have hstar : Takes (Pattern.star p) words.flatten () rest := Takes.star hwords
    obtain ⟨after, hafter⟩ := hstar middle
    refine ⟨after, ?_⟩
    rw [List.flatten_cons, List.append_assoc]
    have hpos := List.length_pos_iff.mpr hne
    obtain ⟨n, hn⟩ : ∃ n, (word ++ (words.flatten ++ rest)).length = n + 1 :=
      Nat.exists_eq_succ_of_ne_zero (by rw [List.length_append]; omega)
    change _ ∈ star.go p (word ++ (words.flatten ++ rest)).length _
    rw [hn, star.go]
    refine List.mem_append_left _ (List.mem_flatMap.mpr ⟨_, List.mem_filter.mpr ⟨hmiddle, ?_⟩, ?_⟩)
    · refine decide_eq_true ?_
      change (words.flatten ++ rest).length < (word ++ (words.flatten ++ rest)).length
      have : (word ++ (words.flatten ++ rest)).length = word.length + (words.flatten ++ rest).length :=
        List.length_append
      omega
    · rw [star_go_eq p n _ (by rw [List.length_append] at hn; dsimp only; omega)]
      exact hafter

/-! ## First ways -/

/-- Before another character the pattern of a class fits with nothing only. -/
theorem many_of_not {p : Char → Bool} {c : Char} (h : p c = false) (before : Option Char) (rest : List Char) :
    many p ⟨before, c :: rest⟩ = [([], ⟨before, c :: rest⟩)] := by
  change many.go p before (c :: rest) = _
  rw [many.go, if_neg (by rw [h]; exact Bool.false_ne_true)]

/-- A repetition takes at first all that it can. -/
theorem head?_many {p : Char → Bool} {text rest : List Char} {c : Char} (htext : ∀ d ∈ text, p d = true)
    (hstop : p c = false) (before : Option Char) :
    (many p ⟨before, text ++ c :: rest⟩).head? = some (text, ⟨lastOr before text, c :: rest⟩) := by
  induction text generalizing before with
  | nil => rw [List.nil_append, many_of_not hstop]; rfl
  | cons d text ih =>
    obtain ⟨hd, htext⟩ := List.forall_mem_cons.mp htext
    have hmore := ih htext (some d)
    change (many.go p before (d :: (text ++ c :: rest))).head? = _
    change (many.go p (some d) (text ++ c :: rest)).head? = _ at hmore
    rw [many.go, if_pos hd, List.head?_append, List.head?_map, hmore, lastOr_cons]
    rfl

/-- **The first way** goes on with the first way. -/
theorem head?_bind {p : Pattern γ} {f : γ → Pattern δ} {cursor : Cursor} {first : γ × Cursor} {way : δ × Cursor}
    (hfirst : (p cursor).head? = some first) (hway : (f first.1 first.2).head? = some way) :
    ((p >>= f) cursor).head? = some way := by
  obtain ⟨ways, hways⟩ := List.head?_eq_some_iff.mp hfirst
  rw [bind_apply, hways, List.flatMap_cons, List.head?_append, hway]
  rfl

/-! ## Patterns that do not look back -/

/-- What a way finds and what it leaves. -/
def forget (way : γ × Cursor) : γ × List Char := (way.1, way.2.rest)

/-- **A pattern that does not look at the character before a place.** -/
def Blind (p : Pattern γ) : Prop :=
  ∀ before before' rest, (p ⟨before, rest⟩).map forget = (p ⟨before', rest⟩).map forget

/-- A pattern whose second part does not look back can be followed without what stands before. -/
theorem map_forget_bind {p : Pattern γ} {f : γ → Pattern δ} (hf : ∀ a, Blind (f a)) (cursor : Cursor) :
    ((p >>= f) cursor).map forget =
      ((p cursor).map forget).flatMap fun found => (f found.1 ⟨none, found.2⟩).map forget := by
  rw [bind_apply, List.map_flatMap, List.flatMap_map]
  exact List.flatMap_congr fun way _ => hf way.1 way.2.before none way.2.rest

/-- Patterns that do not look back make up patterns that do not. -/
theorem Blind.bind {p : Pattern γ} {f : γ → Pattern δ} (hp : Blind p) (hf : ∀ a, Blind (f a)) : Blind (p >>= f) := by
  intro before before' rest
  rw [map_forget_bind hf, map_forget_bind hf, hp before before' rest]

/-- The empty pattern does not look back. -/
theorem Blind.pure (a : γ) : Blind (pure a : Pattern γ) := fun _ _ _ => rfl

/-- One character does not look back. -/
theorem Blind.one (f : Char → Bool) : Blind (one f) := by
  intro before before' rest
  cases rest <;> rfl

/-- A row of characters does not look back. -/
theorem Blind.chars : ∀ text : List Char, Blind (chars text)
  | [] => .pure ()
  | _ :: text => .bind (.one _) fun _ => .chars text

/-- A fixed text does not look back. -/
theorem Blind.lit (text : String) : Blind (lit text) := .chars text.toList

/-- Characters of a class do not look back. -/
theorem Blind.many (f : Char → Bool) : Blind (many f) := by
  intro before before' rest
  change (many.go f before rest).map forget = (many.go f before' rest).map forget
  cases rest with
  | nil => rfl
  | cons c rest =>
    rw [many.go, many.go]
    split
    · rw [List.map_append, List.map_append]
      rfl
    · rfl

/-- Neither do some of them, at least one. -/
theorem Blind.many1 (f : Char → Bool) : Blind (many1 f) := .bind (.one f) fun _ => .bind (.many f) fun _ => .pure _

/-- A choice between patterns that do not look back does not. -/
theorem Blind.orElse {p q : Pattern γ} (hp : Blind p) (hq : Blind q) : Blind (orElse p q) := by
  intro before before' rest
  rw [Pattern.orElse, Pattern.orElse, List.map_append, List.map_append, hp before before', hq before before']

/-- What may be left out does not look back if the pattern does not. -/
theorem Blind.optional {p : Pattern Unit} (hp : Blind p) : Blind (optional p) := hp.orElse (.pure ())

/-- The end of a line looks ahead only. -/
theorem Blind.lineEnd : Blind lineEnd := by
  intro before before' rest
  rw [Pattern.lineEnd, Pattern.lineEnd]
  split <;> rfl

/-- Repetitions of a pattern that does not look back do not. -/
theorem Blind.star {p : Pattern Unit} (hp : Blind p) : Blind (star p) := by
  have hgo : ∀ n before before' rest,
      (star.go p n ⟨before, rest⟩).map forget = (star.go p n ⟨before', rest⟩).map forget := by
    intro n
    induction n with
    | zero => exact fun _ _ _ => rfl
    | succ n ih =>
      intro before before' rest
      have hpasses : ∀ before, (((p ⟨before, rest⟩).filter fun way => way.2.rest.length < rest.length).flatMap
          fun way => star.go p n way.2).map forget =
            (((p ⟨before, rest⟩).map forget).filter fun found => found.2.length < rest.length).flatMap
              fun found => (star.go p n ⟨none, found.2⟩).map forget := by
        intro before
        rw [List.map_flatMap, List.filter_map, List.flatMap_map]
        exact List.flatMap_congr fun way _ => ih way.2.before none way.2.rest
      rw [star.go, star.go, List.map_append, List.map_append, hpasses before, hpasses before', hp before before']
      rfl
  exact fun before before' rest => hgo rest.length before before' rest

/-- The match of such a pattern does not depend on what stands before. -/
theorem Blind.matchAt_eq {p : Pattern γ} (hp : Blind p) (before before' : Option Char) (text : List Char) :
    p.matchAt before text = p.matchAt before' text := by
  change ((p ⟨before, text⟩).head?).map forget = ((p ⟨before', text⟩).head?).map forget
  rw [← List.head?_map, ← List.head?_map, hp before before']

/-- **The beginning of the text is the beginning of a line.** -/
theorem matchAt_lineStart {f : Unit → Pattern γ} (hf : Blind (f ())) {before before' : Option Char}
    (h : before.all (· = '\n') = true) (h' : before'.all (· = '\n') = true) (text : List Char) :
    (lineStart >>= f).matchAt before text = (lineStart >>= f).matchAt before' text := by
  rw [matchAt, matchAt, lineStart_bind f h, lineStart_bind f h']
  exact hf.matchAt_eq before before' text

end Pattern

/-- Where matching does not tell the beginning of the text from that of a line, the search does not. -/
theorem splitMatches_congr {match? : Option α → List α → Option (β × List α)} {before before' : Option α}
    {text : List α} (h : match? before text = match? before' text) :
    splitMatches match? 0 before text = splitMatches match? 0 before' text := by
  cases text with
  | nil => rfl
  | cons c text => rw [splitMatches, splitMatches, h]

/-- Behind a match the search goes on where it ends, with its last character before. -/
theorem splitMatches_skip {match? : Option α → List α → Option (β × List α)} (front rest : List α) (before : Option α) :
    splitMatches match? front.length before (front ++ rest) = splitMatches match? 0 (front.getLast?.or before) rest := by
  induction front generalizing before with
  | nil => rfl
  | cons c front ih => rw [List.length_cons, List.cons_append, splitMatches, ih, getLast?_or_cons]

/-! ## Literal texts -/

section Replace

variable [DecidableEq α] (old new : List α)

/-- `text.replace(old, new)`, for a text that is not empty; as many characters of the last one are to be skipped. -/
def replaceText : Nat → List α → List α
  | _, [] => []
  | skip + 1, _ :: text => replaceText skip text
  | 0, c :: text =>
    if old.isPrefixOf (c :: text) then new ++ replaceText (old.length - 1) text else c :: replaceText 0 text

/-- `text.replace(old, new, 1)` -/
def replaceFirst : List α → List α
  | [] => if old = [] then new else []
  | c :: text => if old.isPrefixOf (c :: text) then new ++ (c :: text).drop old.length else c :: replaceFirst text

variable {old new} {text : List α}

/-- Where the old text stands, the new one is written and the search goes on behind. -/
theorem replaceText_cons_here {c : α} (h : old <+: c :: text) :
    replaceText old new 0 (c :: text) = new ++ replaceText old new (old.length - 1) text := by
  rw [replaceText, if_pos (List.isPrefixOf_iff_prefix.mpr h)]

/-- Where it does not stand, the character stays. -/
theorem replaceText_cons_apart {c : α} (h : ¬ old <+: c :: text) :
    replaceText old new 0 (c :: text) = c :: replaceText old new 0 text := by
  rw [replaceText, if_neg (mt List.isPrefixOf_iff_prefix.mp h)]

/-- **A text with a mark, behind which words begin**: what stands in front of a replacement was there before. -/
theorem prefix_of_prefix_replaceText {d : α} (hd : new.head? = some d) {v : List α} (hv : d ∉ v)
    (h : v <+: replaceText old new 0 text) : v <+: text := by
  induction v generalizing text with
  | nil => exact List.nil_prefix
  | cons e v ih =>
    obtain ⟨hne, hv⟩ := not_or.mp (mt List.mem_cons.mpr hv)
    cases text with
    | nil => exact h
    | cons c text =>
      by_cases hprefix : old <+: c :: text
      · rw [replaceText_cons_here hprefix] at h
        obtain ⟨new, rfl⟩ := List.head?_eq_some_iff.mp hd
        exact absurd (List.cons_prefix_cons.mp h).1.symm hne
      · rw [replaceText_cons_apart hprefix] at h
        obtain ⟨rfl, hrest⟩ := List.cons_prefix_cons.mp h
        exact List.cons_prefix_cons.mpr ⟨rfl, ih hv hrest⟩

/-- **A word does not come into being** where a text is replaced by one whose first character it has not, and within
which it does not begin. -/
theorem infix_of_infix_replaceText {d : α} (hd : new.head? = some d) {w : List α} (hw : d ∉ w)
    (happart : ∀ v ∈ new.tails, v ≠ [] → ¬ v <+: w ∧ ¬ w <+: v) : ∀ (skip : Nat) (text : List α),
      w <:+: replaceText old new skip text → w <:+: text
  | skip, [], h => by
    cases skip <;> exact h
  | skip + 1, c :: text, h =>
    (infix_of_infix_replaceText hd hw happart skip text h).trans (List.suffix_cons c text).isInfix
  | 0, c :: text, h => by
    by_cases hprefix : old <+: c :: text
    · rw [replaceText_cons_here hprefix] at h
      -- a word that begins in the new text lies in it or begins like the rest of it
      have hrest : ∀ v ∈ new.tails, w <:+: v ++ replaceText old new (old.length - 1) text →
          w <:+: replaceText old new (old.length - 1) text := by
        intro v hv hin
        induction v with
        | nil => exact hin
        | cons e v ih =>
          rcases List.infix_cons_iff.mp hin with hhead | htail
          · obtain ⟨hbefore, hwithin⟩ := happart _ hv (List.cons_ne_nil e v)
            rcases List.prefix_or_prefix_of_prefix hhead (List.prefix_append (e :: v) _) with h | h
            · exact absurd h hwithin
            · exact absurd h hbefore
          · have hsuffix : v <:+ new := (List.suffix_cons e v).trans ((List.mem_tails _ _).mp hv)
            exact ih ((List.mem_tails _ _).mpr hsuffix) htail
      have hlater := hrest new ((List.mem_tails _ _).mpr List.suffix_rfl) h
      exact (infix_of_infix_replaceText hd hw happart _ text hlater).trans (List.suffix_cons c text).isInfix
    · rw [replaceText_cons_apart hprefix] at h
      rcases List.infix_cons_iff.mp h with hhead | htail
      · rw [← replaceText_cons_apart hprefix] at hhead
        exact (prefix_of_prefix_replaceText hd hw hhead).isInfix
      · exact (infix_of_infix_replaceText hd hw happart 0 text htail).trans (List.suffix_cons c text).isInfix

/-- **A text is gone where it has been replaced** by one with other characters. -/
theorem not_infix_replaceText (hnew : new ≠ []) (hold : ∀ c ∈ new, c ∉ old) (hne : old ≠ []) :
    ∀ (skip : Nat) (text : List α), ¬ old <:+: replaceText old new skip text
  | _, [], h => by
    cases old with
    | nil => exact hne rfl
    | cons c old => simp [replaceText] at h
  | skip + 1, _ :: text, h => not_infix_replaceText hnew hold hne skip text h
  | 0, c :: text, h => by
    by_cases hprefix : old <+: c :: text
    · rw [replaceText_cons_here hprefix] at h
      have hrest : ∀ front : List α, front ⊆ new → old <:+: front ++ replaceText old new (old.length - 1) text →
          old <:+: replaceText old new (old.length - 1) text := by
        intro front hfront hin
        induction front with
        | nil => exact hin
        | cons d front ih =>
          rcases List.infix_cons_iff.mp hin with hhead | htail
          · obtain ⟨e, old, rfl⟩ := List.exists_cons_of_ne_nil hne
            obtain rfl := (List.cons_prefix_cons.mp hhead).1
            exact absurd List.mem_cons_self (hold e (hfront List.mem_cons_self))
          · exact ih (List.subset_of_cons_subset hfront) htail
      exact not_infix_replaceText hnew hold hne _ text (hrest new (List.Subset.refl _) h)
    · rw [replaceText_cons_apart hprefix] at h
      rcases List.infix_cons_iff.mp h with hhead | htail
      · rw [← replaceText_cons_apart hprefix] at hhead
        obtain ⟨d, new, rfl⟩ := List.exists_cons_of_ne_nil hnew
        exact hprefix (prefix_of_prefix_replaceText rfl (hold d List.mem_cons_self) hhead)
      · exact not_infix_replaceText hnew hold hne 0 text htail

end Replace

end Assure.Library
