import Mathlib.Data.List.Basic
import Mathlib.Tactic.Common

/-!
# Replacing the matches of a pattern

A program that takes comments and literals out of a text replaces what a pattern matches, from the left. Where
the text falls into pieces that match and pieces in which nothing matches (`Separates`), this replaces the
pieces that match (`replaceAll_flatMap`). Where a replacement never begins as the text did (`Changes`), it does
so in no other case (`replaceAll_flatMap_iff`).
-/

namespace Assure.Library

variable {α : Type*}

/-- **`re.sub`**, for a pattern given by what follows its match at the start of a text; the replacement is
made from what was matched. -/
def replaceAll (matched : List Char → Option (List Char)) (replacement : List Char → List Char) :
    Nat → List Char → List Char
  | 0, text => text
  | _, [] => []
  | fuel + 1, c :: text =>
    match matched (c :: text) with
    | some rest => replacement ((c :: text).take ((c :: text).length - rest.length)) ++
      replaceAll matched replacement fuel rest
    | none => c :: replaceAll matched replacement fuel text

/-- **The pieces of a text that match**, and nothing matches in the others. -/
def Separates (matched : List Char → Option (List Char)) (text : α → List Char) (isMatch : α → Bool) :
    List α → Prop
  | [] => True
  | piece :: pieces =>
    (if isMatch piece = true then
      text piece ≠ [] ∧ matched (text piece ++ pieces.flatMap text) = some (pieces.flatMap text)
    else ∀ front back, text piece = front ++ back → back ≠ [] → matched (back ++ pieces.flatMap text) = none) ∧
    Separates matched text isMatch pieces

variable {matched : List Char → Option (List Char)} {replacement : List Char → List Char}

/-- Where nothing matches, nothing changes. -/
theorem replaceAll_skip {rest : List Char} : ∀ {text : List Char} {fuel : Nat},
    (∀ front back, text = front ++ back → back ≠ [] → matched (back ++ rest) = none) →
      replaceAll matched replacement (fuel + text.length) (text ++ rest) =
        text ++ replaceAll matched replacement fuel rest
  | [], _, _ => rfl
  | c :: text, fuel, h => by
    have hnone : matched (c :: (text ++ rest)) = none := h [] (c :: text) rfl (List.cons_ne_nil _ _)
    have ih : replaceAll matched replacement (fuel + text.length) (text ++ rest) =
        text ++ replaceAll matched replacement fuel rest :=
      replaceAll_skip fun front back htext hback => h (c :: front) back (congrArg (c :: ·) htext) hback
    rw [List.length_cons, ← Nat.add_assoc, List.cons_append, replaceAll, hnone, ih]
    rfl

/-- **A pass replaces the pieces that match.** -/
theorem replaceAll_flatMap {text : α → List Char} {isMatch : α → Bool} : ∀ {pieces : List α} {fuel : Nat},
    Separates matched text isMatch pieces → (pieces.flatMap text).length ≤ fuel →
      replaceAll matched replacement fuel (pieces.flatMap text) =
        pieces.flatMap fun piece => if isMatch piece = true then replacement (text piece) else text piece
  | [], fuel, _, _ => by cases fuel <;> rfl
  | piece :: pieces, fuel, h, hfuel => by
    obtain ⟨hpiece, hpieces⟩ := h
    rw [List.flatMap_cons, List.flatMap_cons]
    rw [List.flatMap_cons, List.length_append] at hfuel
    cases hmatch : isMatch piece with
    | true =>
      rw [if_pos hmatch] at hpiece
      obtain ⟨hne, hmatched⟩ := hpiece
      obtain ⟨c, cs, htext⟩ := List.exists_cons_of_ne_nil hne
      rw [htext, List.length_cons] at hfuel
      obtain ⟨fuel, rfl⟩ : ∃ m, fuel = m + 1 := ⟨fuel - 1, by omega⟩
      rw [htext, List.cons_append] at hmatched
      have htake : ((c :: cs) ++ pieces.flatMap text).take
          (((c :: cs) ++ pieces.flatMap text).length - (pieces.flatMap text).length) = c :: cs := by
        rw [List.length_append, Nat.add_sub_cancel]
        exact List.take_left
      rw [htext, if_pos rfl, List.cons_append, replaceAll, hmatched]
      dsimp only
      rw [← List.cons_append, htake, replaceAll_flatMap hpieces (by omega)]
    | false =>
      rw [hmatch, if_neg Bool.false_ne_true] at hpiece
      obtain ⟨fuel, rfl⟩ : ∃ m, fuel = m + (text piece).length := ⟨fuel - (text piece).length, by omega⟩
      rw [replaceAll_skip hpiece, replaceAll_flatMap hpieces (by omega)]
      rfl

/-- A replacement does not begin as the text did. -/
def Changes (c : Char) (replaced : List Char) : Prop := ∀ out more, replaced ++ out ≠ c :: more

/-- **The pieces that are to match do**, or nothing matches where they begin, and their beginning is to be
replaced. -/
def Settled (matched : List Char → Option (List Char)) (replacement : List Char → List Char)
    (text : α → List Char) (isMatch : α → Bool) : List α → Prop
  | [] => True
  | piece :: pieces =>
    (isMatch piece = true → ∃ c cs, text piece = c :: cs ∧
      (matched (text piece ++ pieces.flatMap text) = some (pieces.flatMap text) ∨
        matched (text piece ++ pieces.flatMap text) = none ∧ Changes c (replacement (text piece)))) ∧
    Settled matched replacement text isMatch pieces

section

variable (hchanges : ∀ c text rest, matched (c :: text) = some rest →
  Changes c (replacement ((c :: text).take ((c :: text).length - rest.length))))

include hchanges

/-- A text that is not changed has no match. -/
theorem none_of_replaceAll_eq {rest out : List Char} : ∀ {text : List Char} {fuel : Nat},
    replaceAll matched replacement (fuel + text.length) (text ++ rest) = text ++ out →
      (∀ front back, text = front ++ back → back ≠ [] → matched (back ++ rest) = none) ∧
        replaceAll matched replacement fuel rest = out
  | [], _, h => ⟨fun front back htext hback => absurd (List.append_eq_nil_iff.mp htext.symm).2 hback, h⟩
  | c :: text, fuel, h => by
    rw [List.length_cons, ← Nat.add_assoc, List.cons_append, replaceAll] at h
    cases hmatched : matched (c :: (text ++ rest)) with
    | some after =>
      rw [hmatched] at h
      exact absurd h (hchanges c (text ++ rest) after hmatched _ _)
    | none =>
      rw [hmatched] at h
      obtain ⟨hnone, hrest⟩ := none_of_replaceAll_eq (List.cons.inj h).2
      refine ⟨fun front back htext hback => ?_, hrest⟩
      cases front with
      | nil =>
        obtain rfl : c :: text = back := htext
        exact hmatched
      | cons d front => exact hnone front back (List.cons.inj htext).2 hback

/-- **A pass replaces exactly the pieces that are to match** if and only if they do, and nothing matches in the
others. -/
theorem replaceAll_flatMap_iff {text : α → List Char} {isMatch : α → Bool} : ∀ {pieces : List α} {fuel : Nat},
    Settled matched replacement text isMatch pieces → (pieces.flatMap text).length ≤ fuel →
      (replaceAll matched replacement fuel (pieces.flatMap text) =
          pieces.flatMap (fun piece => if isMatch piece = true then replacement (text piece) else text piece) ↔
        Separates matched text isMatch pieces)
  | [], fuel, _, _ => by cases fuel <;> exact iff_of_true rfl trivial
  | piece :: pieces, fuel, h, hfuel => by
    obtain ⟨hpiece, hpieces⟩ := h
    refine ⟨fun heq => ?_, fun hseparates => replaceAll_flatMap hseparates hfuel⟩
    rw [List.flatMap_cons, List.flatMap_cons] at heq
    rw [List.flatMap_cons, List.length_append] at hfuel
    cases hmatch : isMatch piece with
    | true =>
      obtain ⟨c, cs, htext, hmatched⟩ := hpiece hmatch
      rw [htext, List.length_cons] at hfuel
      obtain ⟨fuel, rfl⟩ : ∃ m, fuel = m + 1 := ⟨fuel - 1, by omega⟩
      rw [hmatch, if_pos rfl, htext, List.cons_append, replaceAll, ← List.cons_append, ← htext] at heq
      rcases hmatched with hmatched | ⟨hnone, hbegins⟩
      · have htake : (text piece ++ pieces.flatMap text).take
            ((text piece ++ pieces.flatMap text).length - (pieces.flatMap text).length) = text piece := by
          rw [List.length_append, Nat.add_sub_cancel]
          exact List.take_left
        rw [hmatched] at heq
        dsimp only at heq
        rw [htake] at heq
        have hrest := (replaceAll_flatMap_iff hpieces (by omega)).mp (List.append_cancel_left heq)
        refine ⟨?_, hrest⟩
        rw [if_pos hmatch]
        exact ⟨htext ▸ List.cons_ne_nil c cs, hmatched⟩
      · rw [hnone] at heq
        exact absurd heq.symm (hbegins _ _)
    | false =>
      obtain ⟨fuel, rfl⟩ : ∃ m, fuel = m + (text piece).length := ⟨fuel - (text piece).length, by omega⟩
      rw [hmatch, if_neg Bool.false_ne_true] at heq
      obtain ⟨hnone, hrest⟩ := none_of_replaceAll_eq hchanges heq
      refine ⟨?_, (replaceAll_flatMap_iff hpieces (by omega)).mp hrest⟩
      rw [if_neg (by rw [hmatch]; exact Bool.false_ne_true)]
      exact hnone

end

end Assure.Library
