import Mathlib.Data.List.Basic
import Mathlib.Order.Bounds.Basic
import Mathlib.Order.MinMax
import Mathlib.Tactic.Common

/-!
# Edit distances

One text is turned into another by single edits: a character is put in, taken out or replaced. The least number of
edits is a metric on texts. It is computed from an alignment of the two texts, which goes through both from left to
right (`isLeast_levenshtein`), and an alignment of the reversed texts is as good (`levenshtein_reverse`).
-/

namespace Assure.Library

variable {α : Type*}

/-! ## Edits -/

/-- **A single edit.** -/
inductive EditStep : List α → List α → Prop
  | insert (front : List α) (b : α) (back : List α) : EditStep (front ++ back) (front ++ b :: back)
  | delete (front : List α) (a : α) (back : List α) : EditStep (front ++ a :: back) (front ++ back)
  | substitute (front : List α) (a b : α) (back : List α) : EditStep (front ++ a :: back) (front ++ b :: back)

/-- **So many edits**, one after another. -/
inductive Edits : Nat → List α → List α → Prop
  | refl (s : List α) : Edits 0 s s
  | step {n : Nat} {s t u : List α} (h : EditStep s t) (hrest : Edits n t u) : Edits (n + 1) s u

/-- A step behind a common first entry is a step. -/
theorem EditStep.cons {s t : List α} (h : EditStep s t) (a : α) : EditStep (a :: s) (a :: t) := by
  cases h with
  | insert front b back => exact .insert (a :: front) b back
  | delete front c back => exact .delete (a :: front) c back
  | substitute front c b back => exact .substitute (a :: front) c b back

/-- Every step can be undone by one step. -/
theorem EditStep.symm {s t : List α} (h : EditStep s t) : EditStep t s := by
  cases h with
  | insert front b back => exact .delete front b back
  | delete front c back => exact .insert front c back
  | substitute front c b back => exact .substitute front b c back

/-- Edits behind a common first entry are as many edits. -/
theorem Edits.cons {n : Nat} {s t : List α} (h : Edits n s t) (a : α) : Edits n (a :: s) (a :: t) := by
  induction h with
  | refl s => exact .refl _
  | step h _ ih => exact .step (h.cons a) ih

/-- Edits followed by others are as many as both together. -/
theorem Edits.trans {m n : Nat} {s t u : List α} (h : Edits m s t) (h' : Edits n t u) : Edits (m + n) s u := by
  induction h with
  | refl s => exact (Nat.zero_add n).symm ▸ h'
  | @step k _ _ _ h _ ih => exact Nat.add_right_comm k 1 n ▸ .step h (ih h')

/-- Edits can be undone by as many. -/
theorem Edits.symm {n : Nat} {s t : List α} (h : Edits n s t) : Edits n t s := by
  induction h with
  | refl s => exact .refl s
  | step h _ ih => exact ih.trans (.step h.symm (.refl _))

/-- Without an edit nothing changes. -/
theorem Edits.eq_of_zero {s t : List α} (h : Edits 0 s t) : s = t := by
  cases h
  rfl

/-! ## Alignments -/

/-- **An alignment**: both texts from left to right, with so many characters that do not go together. -/
inductive Align : Nat → List α → List α → Prop
  | nil : Align 0 [] []
  | keep {n : Nat} {s t : List α} (a : α) (h : Align n s t) : Align n (a :: s) (a :: t)
  | substitute {n : Nat} {s t : List α} (a b : α) (h : Align n s t) : Align (n + 1) (a :: s) (b :: t)
  | delete {n : Nat} {s t : List α} (a : α) (h : Align n s t) : Align (n + 1) (a :: s) t
  | insert {n : Nat} {s t : List α} (b : α) (h : Align n s t) : Align (n + 1) s (b :: t)

/-- A list is aligned with itself at no cost. -/
theorem Align.refl : ∀ s : List α, Align 0 s s
  | [] => .nil
  | a :: s => .keep a (refl s)

/-- Every entry too many costs an edit. -/
theorem Align.length_le {n : Nat} {s t : List α} (h : Align n s t) : s.length ≤ n + t.length := by
  induction h with
  | nil => exact Nat.zero_le _
  | keep a _ ih => simpa [← Nat.add_assoc] using ih
  | substitute a b _ ih => rw [List.length_cons, List.length_cons]; omega
  | delete a _ ih => rw [List.length_cons]; omega
  | insert b _ ih => rw [List.length_cons]; omega

/-- Alignments can be set behind each other. -/
theorem Align.append {m n : Nat} {s s' t t' : List α} (h : Align m s t) (h' : Align n s' t') :
    Align (m + n) (s ++ s') (t ++ t') := by
  induction h with
  | nil => exact (Nat.zero_add n).symm ▸ h'
  | keep a _ ih => exact .keep a ih
  | @substitute k _ _ a b _ ih => exact Nat.add_right_comm k 1 n ▸ .substitute a b ih
  | @delete k _ _ a _ ih => exact Nat.add_right_comm k 1 n ▸ .delete a ih
  | @insert k _ _ b _ ih => exact Nat.add_right_comm k 1 n ▸ .insert b ih

/-- An alignment can be read from the end. -/
theorem Align.reverse {n : Nat} {s t : List α} (h : Align n s t) : Align n s.reverse t.reverse := by
  induction h with
  | nil => exact .nil
  | keep a _ ih =>
    rw [List.reverse_cons, List.reverse_cons]
    exact ih.append (.keep a .nil)
  | substitute a b _ ih =>
    rw [List.reverse_cons, List.reverse_cons]
    exact ih.append (.substitute a b .nil)
  | delete a _ ih =>
    have h := ih.append (.delete a .nil)
    rw [List.append_nil] at h
    rwa [List.reverse_cons]
  | insert b _ ih =>
    have h := ih.append (.insert b .nil)
    rw [List.append_nil] at h
    rwa [List.reverse_cons]

/-- The edits of an alignment. -/
theorem Align.edits {n : Nat} {s t : List α} (h : Align n s t) : Edits n s t := by
  induction h with
  | nil => exact .refl []
  | keep a _ ih => exact ih.cons a
  | @substitute _ _ t a b _ ih => exact (ih.cons a).trans (.step (.substitute [] a b t) (.refl _))
  | @delete _ _ t a _ ih => exact (ih.cons a).trans (.step (.delete [] a t) (.refl _))
  | @insert _ _ t b _ ih => exact ih.trans (.step (.insert [] b t) (.refl _))

/-- An edit before an alignment makes it worse by 1 at most. -/
theorem Align.of_step {n : Nat} {s t u : List α} (hstep : EditStep s t) (h : Align n t u) :
    ∃ k ≤ n + 1, Align k s u := by
  have hcons : ∀ {front : List α} {s' t' : List α},
      (∀ {n : Nat} {u : List α}, Align n t' u → ∃ k ≤ n + 1, Align k s' u) →
      ∀ {n : Nat} {u : List α}, Align n (front ++ t') u → ∃ k ≤ n + 1, Align k (front ++ s') u := by
    intro front s' t' hback
    induction front with
    | nil => exact hback
    | cons c front ih =>
      intro n u h
      generalize htext : c :: front ++ t' = text at h
      induction h with
      | nil => cases htext
      | keep a h _ =>
        obtain ⟨rfl, rfl⟩ := List.cons.inj htext
        obtain ⟨k, hk, halign⟩ := ih h
        exact ⟨k, hk, .keep c halign⟩
      | substitute a b h _ =>
        obtain ⟨rfl, rfl⟩ := List.cons.inj htext
        obtain ⟨k, hk, halign⟩ := ih h
        exact ⟨k + 1, Nat.succ_le_succ hk, .substitute c b halign⟩
      | delete a h _ =>
        obtain ⟨rfl, rfl⟩ := List.cons.inj htext
        obtain ⟨k, hk, halign⟩ := ih h
        exact ⟨k + 1, Nat.succ_le_succ hk, .delete c halign⟩
      | insert b _ ih' =>
        obtain ⟨k, hk, halign⟩ := ih' htext
        exact ⟨k + 1, Nat.succ_le_succ hk, .insert b halign⟩
  cases hstep with
  | delete front a back => exact hcons (fun h => ⟨_, Nat.le_refl _, .delete a h⟩) h
  | insert front b back =>
    refine hcons (fun {n u} h => ?_) h
    generalize htext : b :: back = text at h
    induction h with
    | nil => cases htext
    | keep a h _ =>
      obtain ⟨rfl, rfl⟩ := List.cons.inj htext
      exact ⟨_, Nat.le_refl _, .insert b h⟩
    | substitute a c h _ =>
      obtain ⟨rfl, rfl⟩ := List.cons.inj htext
      exact ⟨_, Nat.le_succ _, .insert c h⟩
    | @delete k _ _ a h _ =>
      obtain ⟨rfl, rfl⟩ := List.cons.inj htext
      exact ⟨k, by omega, h⟩
    | insert c _ ih =>
      obtain ⟨k, hk, halign⟩ := ih htext
      exact ⟨k + 1, Nat.succ_le_succ hk, .insert c halign⟩
  | substitute front a b back =>
    refine hcons (fun {n u} h => ?_) h
    generalize htext : b :: back = text at h
    induction h with
    | nil => cases htext
    | keep c h _ =>
      obtain ⟨rfl, rfl⟩ := List.cons.inj htext
      exact ⟨_, Nat.le_refl _, .substitute a b h⟩
    | substitute d c h _ =>
      obtain ⟨rfl, rfl⟩ := List.cons.inj htext
      exact ⟨_, Nat.le_succ _, .substitute a c h⟩
    | delete c h _ =>
      obtain ⟨rfl, rfl⟩ := List.cons.inj htext
      exact ⟨_, Nat.le_succ _, .delete a h⟩
    | insert c _ ih =>
      obtain ⟨k, hk, halign⟩ := ih htext
      exact ⟨k + 1, Nat.succ_le_succ hk, .insert c halign⟩

/-- **Edits align texts** as well as they are many. -/
theorem Edits.align {n : Nat} {s t : List α} (h : Edits n s t) : ∃ k ≤ n, Align k s t := by
  induction h with
  | refl s => exact ⟨0, Nat.le_refl 0, .refl s⟩
  | step h _ ih =>
    obtain ⟨k, hk, halign⟩ := ih
    obtain ⟨m, hm, halign'⟩ := halign.of_step h
    exact ⟨m, by omega, halign'⟩

/-! ## The best alignment -/

variable [DecidableEq α]

/-- **The least number of edits**, by the first characters. -/
def levenshtein : List α → List α → Nat
  | [], t => t.length
  | _ :: s, [] => s.length + 1
  | a :: s, b :: t =>
    min (min (levenshtein s (b :: t) + 1) (levenshtein (a :: s) t + 1)) (levenshtein s t + if a = b then 0 else 1)
termination_by s t => s.length + t.length

/-- From the empty list everything is inserted. -/
theorem levenshtein_nil_left (t : List α) : levenshtein [] t = t.length := by rw [levenshtein]

/-- To the empty list everything is deleted. -/
theorem levenshtein_nil_right (s : List α) : levenshtein s [] = s.length := by
  cases s with
  | nil => rw [levenshtein]
  | cons a s => rw [levenshtein, List.length_cons]

/-- The equation that the table is filled by. -/
theorem levenshtein_cons_cons (a b : α) (s t : List α) :
    levenshtein (a :: s) (b :: t) =
      min (min (levenshtein s (b :: t) + 1) (levenshtein (a :: s) t + 1))
        (levenshtein s t + if a = b then 0 else 1) := by
  rw [levenshtein]

/-- The distance is the cost of an alignment. -/
theorem align_levenshtein : ∀ s t : List α, Align (levenshtein s t) s t
  | [], [] => by
    rw [levenshtein]
    exact .nil
  | [], b :: t => by
    have h := align_levenshtein [] t
    rw [levenshtein_nil_left] at h ⊢
    exact .insert b h
  | a :: s, [] => by
    have h := align_levenshtein s []
    rw [levenshtein_nil_right] at h ⊢
    exact .delete a h
  | a :: s, b :: t => by
    rw [levenshtein_cons_cons]
    rcases min_choice (min (levenshtein s (b :: t) + 1) (levenshtein (a :: s) t + 1))
      (levenshtein s t + if a = b then 0 else 1) with h | h
    · rw [h]
      rcases min_choice (levenshtein s (b :: t) + 1) (levenshtein (a :: s) t + 1) with h | h
      · rw [h]
        exact .delete a (align_levenshtein s (b :: t))
      · rw [h]
        exact .insert b (align_levenshtein (a :: s) t)
    · rw [h]
      by_cases hab : a = b
      · rw [if_pos hab, hab]
        exact .keep b (align_levenshtein s t)
      · rw [if_neg hab]
        exact .substitute a b (align_levenshtein s t)
termination_by s t => s.length + t.length

/-- A deletion costs one edit at most. -/
theorem levenshtein_delete (a : α) (s t : List α) : levenshtein (a :: s) t ≤ levenshtein s t + 1 := by
  cases t with
  | nil => rw [levenshtein_nil_right, levenshtein_nil_right, List.length_cons]
  | cons b t =>
    rw [levenshtein_cons_cons]
    exact (min_le_left _ _).trans (min_le_left _ _)

/-- An insertion costs one edit at most. -/
theorem levenshtein_insert (b : α) (s t : List α) : levenshtein s (b :: t) ≤ levenshtein s t + 1 := by
  cases s with
  | nil => rw [levenshtein_nil_left, levenshtein_nil_left, List.length_cons]
  | cons a s =>
    rw [levenshtein_cons_cons]
    exact (min_le_left _ _).trans (min_le_right _ _)

/-- No alignment is better. -/
theorem Align.levenshtein_le {n : Nat} {s t : List α} (h : Align n s t) : levenshtein s t ≤ n := by
  induction h with
  | nil => rw [levenshtein_nil_left, List.length_nil]
  | @keep n s t a _ ih =>
    have hkeep : levenshtein (a :: s) (a :: t) ≤ levenshtein s t := by
      rw [levenshtein_cons_cons, if_pos rfl]
      exact min_le_right _ _
    exact hkeep.trans ih
  | @substitute n s t a b _ ih =>
    have hsubstitute : levenshtein (a :: s) (b :: t) ≤ levenshtein s t + 1 := by
      rw [levenshtein_cons_cons]
      refine (min_le_right _ _).trans (Nat.add_le_add_left ?_ _)
      split <;> decide
    omega
  | @delete n s t a _ ih =>
    have := levenshtein_delete a s t
    omega
  | @insert n s t b _ ih =>
    have := levenshtein_insert b s t
    omega

/-- **It is the least number of edits.** -/
theorem isLeast_levenshtein (s t : List α) : IsLeast {n | Edits n s t} (levenshtein s t) := by
  refine ⟨(align_levenshtein s t).edits, fun n hn => ?_⟩
  obtain ⟨k, hk, halign⟩ := Edits.align hn
  exact halign.levenshtein_le.trans hk

/-- The distance does not depend on the end from which the lists are read. -/
theorem levenshtein_reverse (s t : List α) : levenshtein s.reverse t.reverse = levenshtein s t := by
  refine Nat.le_antisymm (align_levenshtein s t).reverse.levenshtein_le ?_
  have h := (align_levenshtein s.reverse t.reverse).reverse
  rw [List.reverse_reverse, List.reverse_reverse] at h
  exact h.levenshtein_le

/-! ## A metric -/

/-- Only equal lists are no edit apart. -/
theorem levenshtein_eq_zero {s t : List α} : levenshtein s t = 0 ↔ s = t := by
  constructor
  · intro h
    have hedits := (isLeast_levenshtein s t).1
    rw [h] at hedits
    exact Edits.eq_of_zero hedits
  · rintro rfl
    exact Nat.le_zero.mp (Align.refl s).levenshtein_le

/-- The distance is the same in both directions. -/
theorem levenshtein_comm (s t : List α) : levenshtein s t = levenshtein t s :=
  Nat.le_antisymm ((isLeast_levenshtein s t).2 (isLeast_levenshtein t s).1.symm)
    ((isLeast_levenshtein t s).2 (isLeast_levenshtein s t).1.symm)

/-- The distance by way of a third list is no less. -/
theorem levenshtein_triangle (s t u : List α) : levenshtein s u ≤ levenshtein s t + levenshtein t u :=
  (isLeast_levenshtein s u).2 ((isLeast_levenshtein s t).1.trans (isLeast_levenshtein t u).1)

/-- **Text put before a text** is as far away as it is long. -/
theorem levenshtein_append_left (front t : List α) : levenshtein (front ++ t) t = front.length := by
  refine Nat.le_antisymm ?_ ?_
  · induction front with
    | nil => exact (levenshtein_eq_zero.mpr rfl).le
    | cons a front ih => exact (levenshtein_delete a (front ++ t) t).trans (Nat.succ_le_succ ih)
  · have hlength := (align_levenshtein (front ++ t) t).length_le
    rw [List.length_append] at hlength
    omega

end Assure.Library
