import Assure.Library.Regex
import Mathlib.Data.List.TakeWhile
import Mathlib.Data.List.DropRight

/-!
# Blanks around a text

`strip` on characters: what it takes away, and what may be added to a text without its noticing.
-/

namespace Assure.Library

/-- `text.strip()` on characters. -/
def stripBlanks (chars : CharClass) (text : List Char) : List Char :=
  ((text.dropWhile chars.space).reverse.dropWhile chars.space).reverse

/-- `text.rstrip()` on characters. -/
def rstripBlanks (chars : CharClass) (text : List Char) : List Char := text.rdropWhile chars.space

section Blanks

variable {chars : CharClass}

/-- Stripping brings no character in. -/
theorem mem_stripBlanks {c : Char} {text : List Char} (h : c ∈ stripBlanks chars text) : c ∈ text := by
  have h' := (List.dropWhile_sublist _).subset (List.mem_reverse.mp h)
  exact (List.dropWhile_sublist _).subset (List.mem_reverse.mp h')

/-- Dropping blanks in front drops nothing else. -/
theorem countP_dropWhile_space (text : List Char) :
    (text.dropWhile chars.space).countP (fun c => !chars.space c) = text.countP fun c => !chars.space c := by
  induction text with
  | nil => rfl
  | cons c text ih =>
    rw [List.dropWhile_cons]
    split
    · rename_i hspace
      rw [ih, List.countP_cons_of_neg (by rw [hspace]; decide)]
    · rfl

/-- Stripping leaves every character that is no blank. -/
theorem countP_stripBlanks (text : List Char) :
    (stripBlanks chars text).countP (fun c => !chars.space c) = text.countP fun c => !chars.space c := by
  rw [stripBlanks, List.countP_reverse, countP_dropWhile_space, List.countP_reverse, countP_dropWhile_space]

/-- Of a text of blanks nothing is left in front. -/
theorem dropWhile_space_eq_nil {text : List Char} (h : ∀ c ∈ text, chars.space c = true) :
    text.dropWhile chars.space = [] :=
  List.dropWhile_eq_nil_iff.mpr h

/-- Of a text of blanks stripping leaves nothing. -/
theorem stripBlanks_eq_nil {text : List Char} (h : ∀ c ∈ text, chars.space c = true) : stripBlanks chars text = [] := by
  rw [stripBlanks, dropWhile_space_eq_nil h]
  rfl

/-- Blanks behind a text do not matter. -/
theorem stripBlanks_append {blanks : List Char} (h : ∀ c ∈ blanks, chars.space c = true) (text : List Char) :
    stripBlanks chars (text ++ blanks) = stripBlanks chars text := by
  have hreverse : blanks.reverse.dropWhile chars.space = [] :=
    dropWhile_space_eq_nil fun c hc => h c (List.mem_reverse.mp hc)
  rw [stripBlanks, stripBlanks, List.dropWhile_append]
  split
  · rename_i hempty
    rw [List.isEmpty_iff.mp hempty, dropWhile_space_eq_nil h]
  · rw [List.reverse_append, List.dropWhile_append, hreverse]
    rfl


/-- **What is taken away**: blanks on both sides. -/
theorem exists_stripBlanks (text : List Char) :
    ∃ front back, (∀ c ∈ front, chars.space c = true) ∧ (∀ c ∈ back, chars.space c = true) ∧
      text = front ++ stripBlanks chars text ++ back := by
  refine ⟨text.takeWhile chars.space, ((text.dropWhile chars.space).reverse.takeWhile chars.space).reverse,
    fun c hc => List.mem_takeWhile_imp hc, fun c hc => List.mem_takeWhile_imp (List.mem_reverse.mp hc), ?_⟩
  rw [stripBlanks, List.append_assoc, ← List.reverse_append, List.takeWhile_append_dropWhile, List.reverse_reverse,
    List.takeWhile_append_dropWhile]

/-- A blank before a text does not matter. -/
theorem stripBlanks_cons {c : Char} (h : chars.space c = true) (text : List Char) :
    stripBlanks chars (c :: text) = stripBlanks chars text := by
  rw [stripBlanks, List.dropWhile_cons_of_pos h]
  rfl

/-- A text with no blank at either end. -/
theorem stripBlanks_eq_self {text : List Char} (hhead : text.head?.any chars.space = false)
    (hlast : text.getLast?.any chars.space = false) : stripBlanks chars text = text := by
  have hstop : ∀ {l : List Char}, l.head?.any chars.space = false → l.dropWhile chars.space = l := by
    intro l h
    cases l with
    | nil => rfl
    | cons c l => exact List.dropWhile_cons_of_neg (Bool.eq_false_iff.mp h)
  rw [stripBlanks, hstop hhead, hstop (by rwa [List.head?_reverse]), List.reverse_reverse]

/-- A stripped text does not begin with a blank. -/
theorem head?_stripBlanks (text : List Char) : (stripBlanks chars text).head?.any chars.space = false := by
  have hprefix : stripBlanks chars text <+: text.dropWhile chars.space := List.rdropWhile_prefix chars.space _
  obtain ⟨rest, hrest⟩ := hprefix
  have hhead := List.head?_dropWhile_not chars.space text
  cases hstrip : stripBlanks chars text with
  | nil => rfl
  | cons c front =>
    rw [hstrip] at hrest
    rw [← hrest] at hhead
    simpa using hhead

/-- A stripped text does not end in a blank. -/
theorem getLast?_stripBlanks (text : List Char) : (stripBlanks chars text).getLast?.any chars.space = false := by
  have hhead := List.head?_dropWhile_not chars.space (text.dropWhile chars.space).reverse
  rw [stripBlanks, List.getLast?_reverse]
  cases hlast : ((text.dropWhile chars.space).reverse.dropWhile chars.space).head? with
  | none => rfl
  | some c =>
    rw [hlast] at hhead
    simpa using hhead

/-- Stripping twice is stripping once. -/
theorem stripBlanks_stripBlanks (text : List Char) :
    stripBlanks chars (stripBlanks chars text) = stripBlanks chars text :=
  stripBlanks_eq_self (head?_stripBlanks text) (getLast?_stripBlanks text)

/-- A text without the blanks at its end. -/
theorem exists_rstripBlanks (text : List Char) :
    ∃ back, (∀ c ∈ back, chars.space c = true) ∧ text = rstripBlanks chars text ++ back := by
  refine ⟨text.reverse.takeWhile chars.space |>.reverse,
    fun c hc => List.mem_takeWhile_imp (List.mem_reverse.mp hc), ?_⟩
  rw [rstripBlanks, List.rdropWhile, ← List.reverse_append, List.takeWhile_append_dropWhile, List.reverse_reverse]

/-- Blanks behind a text do not matter to stripping on the right. -/
theorem rstripBlanks_append {blanks : List Char} (h : ∀ c ∈ blanks, chars.space c = true) (text : List Char) :
    rstripBlanks chars (text ++ blanks) = rstripBlanks chars text := by
  rw [rstripBlanks, rstripBlanks, List.rdropWhile, List.rdropWhile, List.reverse_append, List.dropWhile_append,
    dropWhile_space_eq_nil fun c hc => h c (List.mem_reverse.mp hc)]
  rfl

/-- A text that ends in no blank is left as it is. -/
theorem rstripBlanks_eq_self {text : List Char} (h : text.getLast?.any chars.space = false) :
    rstripBlanks chars text = text := by
  rw [rstripBlanks, List.rdropWhile_eq_self_iff]
  intro hne hspace
  rw [List.getLast?_eq_some_getLast hne, Option.any_some, hspace] at h
  exact Bool.noConfusion h

/-- **What is stripped**, from what is stripped at its end. -/
theorem exists_rstripBlanks_stripBlanks {text : List Char} (hne : stripBlanks chars text ≠ []) :
    ∃ front, (∀ c ∈ front, chars.space c = true) ∧ rstripBlanks chars text = front ++ stripBlanks chars text := by
  obtain ⟨front, back, hfront, hback, hsplit⟩ := @exists_stripBlanks chars text
  refine ⟨front, hfront, ?_⟩
  nth_rewrite 1 [hsplit]
  rw [rstripBlanks_append hback]
  refine rstripBlanks_eq_self ?_
  rw [List.getLast?_append_of_ne_nil _ hne]
  exact getLast?_stripBlanks text

/-- Blanks around a text with none at its ends. -/
theorem stripBlanks_around {front text back : List Char} (hfront : ∀ c ∈ front, chars.space c = true)
    (hback : ∀ c ∈ back, chars.space c = true) (hhead : text.head?.any chars.space = false)
    (hlast : text.getLast?.any chars.space = false) : stripBlanks chars (front ++ text ++ back) = text := by
  rw [stripBlanks_append hback]
  induction front with
  | nil => exact stripBlanks_eq_self hhead hlast
  | cons c front ih =>
    rw [List.cons_append, stripBlanks_cons (hfront c List.mem_cons_self)]
    exact ih fun d hd => hfront d (List.mem_cons_of_mem c hd)

end Blanks

end Assure.Library
