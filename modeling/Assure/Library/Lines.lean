import Mathlib.Data.List.Basic
import Mathlib.Tactic.Common

/-!
# Lines

A text is split at its ends of lines and put together again. What is said here is about dropping lines: two
passes that drop lines come to one (`keepLines_keepLines`), and a line stands in its text between ends of
lines (`exists_of_mem_splitOn`).
-/

namespace Assure.Library

/-- The code without some lines. -/
def keepLines (drop : List Char → Bool) (code : List Char) : List Char :=
  ['\n'].intercalate ((code.splitOn '\n').filter fun line => !drop line)

/-- No part of a list that is split has the separator in it. -/
theorem notMem_of_mem_splitOn {α : Type*} [BEq α] [LawfulBEq α] {sep : α} {xs part : List α}
    (h : part ∈ xs.splitOn sep) : sep ∉ part := by
  induction xs generalizing part with
  | nil =>
    obtain rfl := List.mem_singleton.mp h
    exact List.not_mem_nil
  | cons c xs ih =>
    rw [List.splitOn_cons_eq_if_modifyHead] at h
    split at h
    · rcases List.mem_cons.mp h with rfl | h
      · exact List.not_mem_nil
      · exact ih h
    · rename_i hc
      cases hsplit : xs.splitOn sep with
      | nil => exact absurd hsplit (List.splitOn_ne_nil sep xs)
      | cons first rest =>
        rw [hsplit, List.modifyHead_cons] at h
        rcases List.mem_cons.mp h with rfl | h
        · refine List.not_mem_cons_of_ne_of_not_mem (fun heq => hc ?_) (ih (hsplit ▸ List.mem_cons_self))
          rw [← heq]
          exact beq_self_eq_true _
        · exact ih (hsplit ▸ List.mem_cons_of_mem first h)

/-- Joining keeps what is in the parts. -/
theorem mem_intercalate_of_mem {α : Type*} {sep : List α} {parts : List (List α)} {part : List α} {a : α}
    (h : part ∈ parts) (ha : a ∈ part) : a ∈ sep.intercalate parts := by
  induction parts with
  | nil => exact absurd h List.not_mem_nil
  | cons first parts ih =>
    cases parts with
    | nil =>
      rw [List.mem_singleton.mp h] at ha
      simpa using ha
    | cons next parts =>
      rw [List.intercalate_cons_cons]
      rcases List.mem_cons.mp h with rfl | h
      · exact List.mem_append_left _ (List.mem_append_left _ ha)
      · exact List.mem_append_right _ (ih h)

/-- The parts have nothing else in them. -/
theorem mem_of_mem_splitOn {α : Type*} [BEq α] [LawfulBEq α] {sep a : α} {xs part : List α}
    (h : part ∈ xs.splitOn sep) (ha : a ∈ part) : a ∈ xs := by
  have hmem : a ∈ [sep].intercalate (xs.splitOn sep) := mem_intercalate_of_mem h ha
  rwa [List.intercalate_splitOn] at hmem

/-- No line has an end of line in it. -/
theorem newline_notMem_of_mem_splitOn {code line : List Char} (h : line ∈ code.splitOn '\n') : '\n' ∉ line :=
  notMem_of_mem_splitOn h

/-- Where some line is kept, the lines that are left are the kept ones. -/
theorem splitOn_keepLines {drop : List Char → Bool} {code : List Char}
    (hne : (code.splitOn '\n').filter (fun line => !drop line) ≠ []) :
    (keepLines drop code).splitOn '\n' = (code.splitOn '\n').filter fun line => !drop line :=
  List.splitOn_intercalate '\n'
    (fun _ hline => newline_notMem_of_mem_splitOn (List.mem_of_mem_filter hline)) hne

/-- **Lines that are dropped in two passes**, the second one dropping more. -/
theorem keepLines_keepLines {drop drop' : List Char → Bool} (h : ∀ line, drop line = true → drop' line = true)
    (hnil : drop' [] = false) (code : List Char) :
    keepLines drop' (keepLines drop code) = keepLines drop' code := by
  by_cases hne : (code.splitOn '\n').filter (fun line => !drop line) = []
  · have hall : (code.splitOn '\n').filter (fun line => !drop' line) = [] := by
      refine List.filter_eq_nil_iff.mpr fun line hline hdrop => ?_
      have hdropped := List.filter_eq_nil_iff.mp hne line hline
      rw [Bool.not_eq_true', Bool.eq_false_iff] at hdrop
      exact hdropped (by rw [Bool.not_eq_true']; exact Bool.eq_false_iff.mpr fun hd => hdrop (h line hd))
    have hempty : keepLines drop code = [] := by rw [keepLines, hne]; rfl
    rw [hempty, keepLines, keepLines, hall]
    simp [hnil]
  · rw [keepLines, splitOn_keepLines hne, keepLines, List.filter_filter]
    congr 1
    refine List.filter_congr fun line _ => ?_
    cases hdrop : drop line with
    | false => simp
    | true => simp [h line hdrop]

/-- A line of a joined text stands between line breaks or the ends of the text. -/
theorem exists_of_mem_intercalate {line : List Char} : ∀ {lines : List (List Char)}, line ∈ lines →
    ∃ front back, ['\n'].intercalate lines = front ++ (line ++ back) ∧
      (front = [] ∨ front.getLast? = some '\n') ∧ (back = [] ∨ back.head? = some '\n') := by
  intro lines hline
  induction lines with
  | nil => cases hline
  | cons first rest ih =>
    cases rest with
    | nil =>
      obtain rfl := List.mem_singleton.mp hline
      exact ⟨[], [], by simp, .inl rfl, .inl rfl⟩
    | cons second rest =>
      have hjoin : ['\n'].intercalate (first :: second :: rest) =
          first ++ '\n' :: ['\n'].intercalate (second :: rest) := by
        simp [List.intercalate_cons_cons]
      rcases List.mem_cons.mp hline with rfl | hline
      · exact ⟨[], _, hjoin, .inl rfl, .inr rfl⟩
      · obtain ⟨front, back, hrest, hfront, hback⟩ := ih hline
        refine ⟨first ++ '\n' :: front, back, by rw [hjoin, hrest]; simp, .inr ?_, hback⟩
        rcases hfront with rfl | hfront
        · simp
        · simp [List.getLast?_append, List.getLast?_cons, hfront]

/-- **A line stands between ends of lines.** -/
theorem exists_of_mem_splitOn {code line : List Char} (h : line ∈ code.splitOn '\n') :
    ∃ front back, code = front ++ (line ++ back) ∧ (front = [] ∨ front.getLast? = some '\n') ∧
      (back = [] ∨ back.head? = some '\n') := by
  have hcode : ['\n'].intercalate (code.splitOn '\n') = code := List.intercalate_splitOn '\n'
  obtain ⟨front, back, hjoin, hfront, hback⟩ := exists_of_mem_intercalate h
  exact ⟨front, back, hcode.symm.trans hjoin, hfront, hback⟩

/-- Joining two rows of parts puts one separator between them. -/
theorem intercalate_append {α : Type*} {sep : List α} {lines lines' : List (List α)} (hne : lines ≠ [])
    (hne' : lines' ≠ []) :
    sep.intercalate (lines ++ lines') = sep.intercalate lines ++ (sep ++ sep.intercalate lines') := by
  induction lines with
  | nil => exact absurd rfl hne
  | cons line lines ih =>
    cases lines with
    | nil =>
      rw [List.singleton_append, List.intercalate_cons_of_ne_nil hne', List.intercalate_singleton,
        List.append_assoc]
    | cons next lines =>
      rw [List.cons_append, List.cons_append, List.intercalate_cons_cons, List.intercalate_cons_cons,
        ← List.cons_append, ih (List.cons_ne_nil _ _), List.append_assoc, List.append_assoc, List.append_assoc]

/-- **The lines of texts one below the other.** -/
theorem intercalate_flatMap_splitOn : ∀ texts : List (List Char),
    ['\n'].intercalate (texts.flatMap (List.splitOn '\n')) = ['\n'].intercalate texts
  | [] => rfl
  | [text] => by
    rw [List.flatMap_cons, List.flatMap_nil, List.append_nil, List.intercalate_splitOn, List.intercalate_singleton]
  | text :: next :: texts => by
    have hne : (next :: texts).flatMap (List.splitOn '\n') ≠ [] := by
      rw [List.flatMap_cons]
      exact List.append_ne_nil_of_left_ne_nil (List.splitOn_ne_nil '\n' next) _
    rw [List.flatMap_cons, intercalate_append (List.splitOn_ne_nil '\n' text) hne, List.intercalate_splitOn,
      intercalate_flatMap_splitOn (next :: texts), List.intercalate_cons_cons, List.append_assoc]

/-- The lines of joined texts are the lines of each of them. -/
theorem splitOn_intercalate_texts {texts : List (List Char)} (hne : texts ≠ []) :
    (['\n'].intercalate texts).splitOn '\n' = texts.flatMap (List.splitOn '\n') := by
  rw [← intercalate_flatMap_splitOn]
  refine List.splitOn_intercalate '\n' ?_ ?_
  · intro line hline
    obtain ⟨text, -, hline⟩ := List.mem_flatMap.mp hline
    exact newline_notMem_of_mem_splitOn hline
  · obtain ⟨text, texts, rfl⟩ := List.exists_cons_of_ne_nil hne
    rw [List.flatMap_cons]
    exact List.append_ne_nil_of_left_ne_nil (List.splitOn_ne_nil '\n' text) _

/-- **Of texts one below the other** those are dropped whose lines all are, if no line of the others is. -/
theorem filter_splitOn_intercalate {α : Type*} {text : α → List Char} {drop : List Char → Bool}
    {dropped : α → Bool} {parts : List α} (hne : parts ≠ [])
    (h : ∀ part ∈ parts, ∀ line ∈ (text part).splitOn '\n', drop line = dropped part) :
    ((['\n'].intercalate (parts.map text)).splitOn '\n').filter drop =
      ((parts.filter dropped).map text).flatMap (List.splitOn '\n') := by
  have hlines : parts.map text ≠ [] := by simpa using hne
  rw [splitOn_intercalate_texts hlines]
  clear hne hlines
  induction parts with
  | nil => rfl
  | cons part parts ih =>
    have hpart := h part List.mem_cons_self
    rw [List.map_cons, List.flatMap_cons, List.filter_append, ih fun p hp => h p (List.mem_cons_of_mem part hp)]
    cases hdrop : dropped part with
    | true =>
      rw [hdrop] at hpart
      rw [List.filter_eq_self.mpr hpart, List.filter_cons_of_pos hdrop, List.map_cons, List.flatMap_cons]
    | false =>
      rw [hdrop] at hpart
      rw [List.filter_eq_nil_iff.mpr fun line hline => by simp [hpart line hline],
        List.filter_cons_of_neg (by simp [hdrop]), List.nil_append]

end Assure.Library
