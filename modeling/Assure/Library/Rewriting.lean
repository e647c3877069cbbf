import Assure.Library.FindAll

/-!
# Replacing what a pattern finds

`re.sub` with a replacement that is made from a match and from what it found. A text is spared if every match that
begins in it ends in it and is its own replacement (`Spared`). Where a text falls into pieces that match as they are
and pieces that are spared, the first are replaced and the others are left (`subAll_of_clear`).
-/

namespace Assure.Library

variable {α β : Type*} (match? : List α → Option (β × List α)) (replacement : List α → β → List α)

/-- **`re.sub`**, for a pattern that does not look at what is before it. -/
def subAll (text : List α) : List α :=
  (splitMatches (fun _ => match?) 0 none text).flatMap
    (Sum.elim (fun c => [c]) fun found => replacement found.1 found.2)

/-- **A text is spared** before another, after so many characters of the last match. -/
def Spared (rest : List α) : Nat → List α → Prop
  | skip, [] => skip = 0
  | skip + 1, _ :: text => Spared rest skip text
  | 0, c :: text =>
    match match? (c :: (text ++ rest)) with
    | some (found, after) =>
      let taken := (c :: (text ++ rest)).take ((text ++ rest).length + 1 - after.length)
      replacement taken found = taken ∧ Spared rest ((text ++ rest).length - after.length) text
    | none => Spared rest 0 text

instance decidableSpared [DecidableEq α] (rest : List α) : ∀ (skip : Nat) (text : List α),
    Decidable (Spared match? replacement rest skip text)
  | skip, [] => inferInstanceAs (Decidable (skip = 0))
  | skip + 1, _ :: text => decidableSpared rest skip text
  | 0, c :: text =>
    match h : match? (c :: (text ++ rest)) with
    | some (found, after) =>
      let taken := (c :: (text ++ rest)).take ((text ++ rest).length + 1 - after.length)
      have := decidableSpared rest ((text ++ rest).length - after.length) text
      decidable_of_iff (replacement taken found = taken ∧
        Spared match? replacement rest ((text ++ rest).length - after.length) text) (by rw [Spared, h])
    | none =>
      have := decidableSpared rest 0 text
      decidable_of_iff (Spared match? replacement rest 0 text) (by rw [Spared, h])

/-- The texts of pieces: a text to be spared, or a text with what is found there. -/
def piecesText (pieces : List (List α ⊕ (List α × β))) : List α := pieces.flatMap (Sum.elim id Prod.fst)

/-- **The pieces of a text**: those that match do so by themselves, and the others are spared. -/
def Clear : List (List α ⊕ (List α × β)) → Prop
  | [] => True
  | .inl text :: pieces => Spared match? replacement (piecesText pieces) 0 text ∧ Clear pieces
  | .inr (text, found) :: pieces => match? text = some (found, []) ∧ Clear pieces

instance decidableClear [DecidableEq α] [DecidableEq β] : ∀ pieces : List (List α ⊕ (List α × β)),
    Decidable (Clear match? replacement pieces)
  | [] => .isTrue trivial
  | .inl text :: pieces =>
    have := decidableClear pieces
    inferInstanceAs (Decidable (Spared match? replacement (piecesText pieces) 0 text ∧ Clear match? replacement pieces))
  | .inr (text, found) :: pieces =>
    have := decidableClear pieces
    inferInstanceAs (Decidable (match? text = some (found, []) ∧ Clear match? replacement pieces))

variable {match? replacement}

/-- A match that does not look back can be searched without what stands before. -/
theorem splitMatches_before (skip : Nat) (before before' : Option α) (text : List α) :
    splitMatches (fun _ => match?) skip before text = splitMatches (fun _ => match?) skip before' text := by
  cases text <;> cases skip <;> rfl

/-- The stretch in front of the whole text is spared. -/
theorem spared_length (rest : List α) : ∀ text : List α, Spared match? replacement rest text.length text
  | [] => rfl
  | _ :: text => spared_length rest text

/-- The last match does not reach over the end of a text that is spared. -/
theorem le_of_spared {rest : List α} : ∀ {text : List α} {skip : Nat},
    Spared match? replacement rest skip text → skip ≤ text.length
  | [], _, h => (show _ = 0 from h).le
  | _ :: _, _ + 1, h => Nat.succ_le_succ (le_of_spared h)
  | _ :: _, 0, _ => Nat.zero_le _

section

variable (hshortens : ∀ text found after, match? text = some (found, after) → after.length < text.length)

include hshortens

/-- **A text that is spared is left as it is.** -/
theorem flatMap_splitMatches_of_spared {rest : List α} : ∀ {text : List α} {skip : Nat} {before : Option α},
    Spared match? replacement rest skip text →
      (splitMatches (fun _ => match?) skip before (text ++ rest)).flatMap
          (Sum.elim (fun c => [c]) fun found => replacement found.1 found.2) =
        text.drop skip ++ subAll match? replacement rest
  | [], skip, before, h => by
    obtain rfl : skip = 0 := h
    rw [List.nil_append, splitMatches_before 0 before none]
    rfl
  | c :: text, skip + 1, _, h => by
    have ih : (splitMatches (fun _ => match?) skip (some c) (text ++ rest)).flatMap
        (Sum.elim (fun c => [c]) fun found => replacement found.1 found.2) =
          text.drop skip ++ subAll match? replacement rest :=
      flatMap_splitMatches_of_spared h
    exact ih
  | c :: text, 0, before, h => by
    rw [Spared] at h
    rw [List.cons_append, splitMatches]
    cases hmatch : match? (c :: (text ++ rest)) with
    | none =>
      rw [hmatch] at h
      rw [List.flatMap_cons, flatMap_splitMatches_of_spared h]
      rfl
    | some way =>
      obtain ⟨found, after⟩ := way
      rw [hmatch] at h
      obtain ⟨hkept, hspared⟩ := h
      have hle : after.length ≤ (text ++ rest).length := Nat.le_of_lt_succ (hshortens _ _ _ hmatch)
      dsimp only
      rw [List.flatMap_cons, flatMap_splitMatches_of_spared hspared, Sum.elim_inr, hkept, Nat.succ_sub hle,
        List.take_succ_cons, List.drop_zero, List.take_append_of_le_length (le_of_spared hspared), List.cons_append,
        List.cons_append, ← List.append_assoc, List.take_append_drop]

/-- A text that is spared, and what follows it. -/
theorem subAll_of_spared {text rest : List α} (h : Spared match? replacement rest 0 text) :
    subAll match? replacement (text ++ rest) = text ++ subAll match? replacement rest :=
  flatMap_splitMatches_of_spared hshortens h

/-- A match is replaced. -/
theorem subAll_of_match {text rest : List α} {found : β} (h : match? (text ++ rest) = some (found, rest)) :
    subAll match? replacement (text ++ rest) = replacement text found ++ subAll match? replacement rest := by
  have hlt := hshortens _ _ _ h
  cases text with
  | nil => exact absurd hlt (lt_irrefl _)
  | cons c text =>
    have hlength : (text ++ rest).length - rest.length = text.length := by
      rw [List.length_append, Nat.add_sub_cancel]
    have htaken : (c :: (text ++ rest)).take ((text ++ rest).length + 1 - rest.length) = c :: text := by
      rw [Nat.succ_sub (by rw [List.length_append]; omega), hlength, List.take_succ_cons, List.take_left]
    rw [subAll, List.cons_append, splitMatches, ← List.cons_append, h]
    dsimp only
    rw [List.flatMap_cons, hlength, flatMap_splitMatches_of_spared hshortens (spared_length rest text),
      List.drop_length, Sum.elim_inr, List.cons_append, htaken]
    rfl

/-- **A text of clear pieces**: those that match are replaced, and the others are left. -/
theorem subAll_of_clear
    (hextends : ∀ text found after rest, match? text = some (found, after) →
      match? (text ++ rest) = some (found, after ++ rest)) :
    ∀ {pieces : List (List α ⊕ (List α × β))}, Clear match? replacement pieces →
      subAll match? replacement (piecesText pieces) =
        pieces.flatMap (Sum.elim id fun found => replacement found.1 found.2)
  | [], _ => rfl
  | .inl text :: pieces, h => by
    rw [piecesText, List.flatMap_cons, List.flatMap_cons, ← subAll_of_clear hextends h.2]
    exact subAll_of_spared hshortens h.1
  | .inr (text, found) :: pieces, h => by
    rw [piecesText, List.flatMap_cons, List.flatMap_cons, ← subAll_of_clear hextends h.2]
    exact subAll_of_match hshortens (hextends text found [] _ h.1)

end

end Assure.Library
