import Mathlib.Data.List.Basic
import Assure.Library.Regex

/-!
# All matches of a pattern

A text is searched from left to right for matches that do not overlap. The pattern is a function that says, by the
character before a place and what follows the place, what it finds there and what follows the match. The search splits
the text into the characters outside matches and the matches (`flatMap_splitMatches`). What it finds matches there
(`match_of_mem_splitMatches`), and it finds every match that no earlier one reaches into (`mem_splitMatches_of_match`).
-/

namespace Assure.Library

variable {α β : Type*} (match? : Option α → List α → Option (β × List α))

/-- The text after so many characters of the last match, split into characters and matches. -/
def splitMatches : Nat → Option α → List α → List (α ⊕ (List α × β))
  | _, _, [] => []
  | skip + 1, _, c :: text => splitMatches skip (some c) text
  | 0, before, c :: text =>
    match match? before (c :: text) with
    | some (found, rest) =>
      .inr ((c :: text).take (text.length + 1 - rest.length), found) ::
        splitMatches (text.length - rest.length) (some c) text
    | none => .inl c :: splitMatches 0 (some c) text

/-- The text of a piece. -/
def pieceSource : α ⊕ (List α × β) → List α := Sum.elim (fun c => [c]) Prod.fst

/-- **`findall`**: what the matches find. -/
def findAll (text : List α) : List β :=
  (splitMatches match? 0 none text).filterMap fun piece => piece.getRight?.map Prod.snd

/-- `re.findall`, for a pattern that takes a character at least. -/
def Pattern.findAll {α : Type} (p : Pattern α) (text : List Char) : List α :=
  Library.findAll (fun before rest => (p ⟨before, rest⟩).head?.map fun way => (way.1, way.2.rest)) text

variable {match?}

/-- What is found are the matches that the text is split at. -/
theorem mem_findAll {text : List α} {found : β} :
    found ∈ findAll match? text ↔ ∃ piece, .inr (piece, found) ∈ splitMatches match? 0 none text := by
  rw [findAll, List.mem_filterMap]
  constructor
  · rintro ⟨c | ⟨piece, found⟩, hin, heq⟩
    · cases heq
    · cases heq
      exact ⟨piece, hin⟩
  · rintro ⟨piece, hin⟩
    exact ⟨.inr (piece, found), hin, rfl⟩

/-- A pattern that does not find the empty text. -/
def Shortens (match? : Option α → List α → Option (β × List α)) : Prop :=
  ∀ before text found rest, match? before text = some (found, rest) → rest.length < text.length

/-- **The pieces make up the text.** -/
theorem flatMap_splitMatches (h : Shortens match?) : ∀ (skip : Nat) (before : Option α) (text : List α),
    (splitMatches match? skip before text).flatMap pieceSource = text.drop skip
  | skip, _, [] => by rw [splitMatches, List.drop_nil]; rfl
  | skip + 1, _, c :: text => by rw [splitMatches, flatMap_splitMatches h skip (some c) text, List.drop_succ_cons]
  | 0, before, c :: text => by
    rw [splitMatches, List.drop_zero]
    split
    · rename_i found rest hmatch
      have hshort : rest.length ≤ text.length := Nat.le_of_lt_succ (h _ _ _ _ hmatch)
      rw [List.flatMap_cons, flatMap_splitMatches h _ (some c) text, Nat.succ_sub hshort]
      show c :: text.take (text.length - rest.length) ++ text.drop (text.length - rest.length) = c :: text
      rw [List.cons_append, List.take_append_drop]
    · rw [List.flatMap_cons, flatMap_splitMatches h 0 (some c) text]
      rfl

/-- The last character before a place, read on by one. -/
theorem getLast?_or_cons (before : Option α) (c : α) (front : List α) :
    (c :: front).getLast?.or before = front.getLast?.or (some c) := by
  rw [List.getLast?_cons]
  cases front.getLast? <;> rfl

/-- A match in the pieces is a match in the text. -/
theorem match_of_mem_splitMatches {piece : List α} {found : β} : ∀ {skip : Nat} {before : Option α} {text : List α},
    .inr (piece, found) ∈ splitMatches match? skip before text →
      ∃ front rest after, text = front ++ rest ∧ match? (front.getLast?.or before) rest = some (found, after) ∧
        piece = rest.take (rest.length - after.length)
  | _, _, [], h => by cases h
  | skip + 1, before, c :: text, h => by
    obtain ⟨front, rest, after, rfl, hmatch, hpiece⟩ :=
      match_of_mem_splitMatches (show _ ∈ splitMatches match? skip (some c) text from h)
    exact ⟨c :: front, rest, after, rfl, by rw [getLast?_or_cons]; exact hmatch, hpiece⟩
  | 0, before, c :: text, h => by
    have hlater : ∀ skip, .inr (piece, found) ∈ splitMatches match? skip (some c) text →
        ∃ front rest after, c :: text = front ++ rest ∧ match? (front.getLast?.or before) rest = some (found, after) ∧
          piece = rest.take (rest.length - after.length) := by
      intro skip hin
      obtain ⟨front, rest, after, rfl, hmatch, hpiece⟩ := match_of_mem_splitMatches hin
      exact ⟨c :: front, rest, after, rfl, by rw [getLast?_or_cons]; exact hmatch, hpiece⟩
    rw [splitMatches] at h
    split at h
    · rename_i found' rest hmatch
      rcases List.mem_cons.mp h with heq | h
      · obtain ⟨rfl, rfl⟩ := Prod.mk.inj (Sum.inr.inj heq)
        exact ⟨[], c :: text, rest, rfl, hmatch, rfl⟩
      · exact hlater _ h
    · rcases List.mem_cons.mp h with heq | h
      · cases heq
      · exact hlater _ h

/-- **A match that no earlier one reaches into** is one of the pieces. -/
theorem mem_splitMatches_of_match {rest after : List α} {found : β} (hne : rest ≠ []) :
    ∀ {front : List α} {skip : Nat} {before : Option α}, skip ≤ front.length →
      match? (front.getLast?.or before) rest = some (found, after) →
      (∀ front' gap found' after', front = front' ++ gap → gap ≠ [] →
        match? (front'.getLast?.or before) (gap ++ rest) = some (found', after') → rest.length ≤ after'.length) →
      ∃ piece, .inr (piece, found) ∈ splitMatches match? skip before (front ++ rest)
  | [], skip, before, hskip, hmatch, _ => by
    obtain rfl := Nat.le_zero.mp hskip
    obtain ⟨c, rest, rfl⟩ := List.exists_cons_of_ne_nil hne
    rw [List.getLast?_nil, Option.none_or] at hmatch
    rw [List.nil_append, splitMatches, hmatch]
    exact ⟨_, List.mem_cons_self⟩
  | c :: front, skip, before, hskip, hmatch, hfree => by
    rw [getLast?_or_cons] at hmatch
    have hlater : ∀ {skip : Nat}, skip ≤ front.length →
        ∃ piece, .inr (piece, found) ∈ splitMatches match? skip (some c) (front ++ rest) := by
      intro skip hskip
      refine mem_splitMatches_of_match hne hskip hmatch fun front' gap found' after' hfront hgap h => ?_
      exact hfree (c :: front') gap found' after' (congrArg (c :: ·) hfront) hgap (by rw [getLast?_or_cons]; exact h)
    rw [List.cons_append]
    cases skip with
    | succ skip => exact hlater (Nat.le_of_succ_le_succ hskip)
    | zero =>
      rw [splitMatches]
      cases hhere : match? before (c :: (front ++ rest)) with
      | none =>
        obtain ⟨piece, hpiece⟩ := hlater (Nat.zero_le _)
        exact ⟨piece, List.mem_cons_of_mem _ hpiece⟩
      | some way =>
        have hbeyond : rest.length ≤ way.2.length :=
          hfree [] (c :: front) way.1 way.2 rfl (List.cons_ne_nil c front) hhere
        have hskip : (front ++ rest).length - way.2.length ≤ front.length := by
          rw [List.length_append]
          omega
        obtain ⟨piece, hpiece⟩ := hlater hskip
        exact ⟨piece, List.mem_cons_of_mem _ hpiece⟩

end Assure.Library
