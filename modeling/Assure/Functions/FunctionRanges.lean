import Assure.Pipeline.DeadHelpers
import Assure.Functions.FuncMap
import Assure.Functions.DependFunctions
import Mathlib.Data.List.Range
import Mathlib.Data.List.Perm.Basic
import Mathlib.Data.List.Nodup

/-!
# The functions of a file

The extractor asks ctags where the functions of a preprocessed file stand, and gives each function its lines together
with all lines before it that belong to no function. The ranges between the functions are built one after another
from the sorted ranges of the functions (`alwaysIncludeRanges`). Where the ranges that are kept do not overlap, each
line up to the end of a function is either in the code of one function or in the context (`extractFuncsAndDeps_spec`).

What ctags answers is a parameter, in any order and with or without last lines; it is assumed that a
last line is not before the first. Nothing is said where kept ranges overlap.
-/

namespace Assure

open Assure.Library

/-! ## Ranges -/

/-- **`Range`**: lines counted from 0, both ends included. -/
structure LineRange where
  sym : String
  start : Nat
  stop : Nat

namespace LineRange

/-- The lines of a range. -/
def places (r : LineRange) : List Nat := List.range' r.start (r.stop + 1 - r.start)

/-- Ranges without a common line. -/
def Apart (r r' : LineRange) : Prop := r.stop < r'.start ∨ r'.stop < r.start

/-- `fileContents[r.start : r.end + 1]` -/
def slice (fileContents : List String) (r : LineRange) : List String :=
  (fileContents.drop r.start).take (r.stop + 1 - r.start)

end LineRange

/-- **A line of ctags**: the last line of a function, where it is given, is not before the first. -/
structure CtagsLine extends FunctionTag where
  line_le : ∀ stop ∈ endLine, line ≤ stop

/-- **`createRangeFromCtagsLine`** -/
def createRangeFromCtagsLine (charClass : CharClass) (allLines : List String) (tag : CtagsLine) : LineRange where
  sym := tag.name
  start := headerStart charClass allLines (tag.line - 1)
  stop := tag.endLine.getD tag.line - 1

/-! ## The extraction -/

/-- **What the extraction sets** in a `FunctionAndDependencies`. -/
structure ExtractedFunction where
  typeDeclDefCodeLines : String
  funcCodeLines : String
  dependFunctions : List String

/-- The ranges of the functions that `should_keep_function_definition` keeps. -/
def funcRanges (charClass : CharClass) (keep : LineRange → Bool) (fileContents : List String) (tags : List CtagsLine) :
    List LineRange :=
  (tags.map (createRangeFromCtagsLine charClass fileContents)).filter keep

/-- `fileRanges.funcRangesMap`: of two ranges with one name the later one stays. -/
def funcRangesMap (ranges : List LineRange) : Dict String LineRange :=
  ranges.foldl (fun map r => map.insert r.sym r) .empty

/-- **The loop over the sorted ranges**: what lies between them, and after the last. -/
def alwaysIncludeRanges (totalRange : Nat) : Nat → List LineRange → List LineRange
  | start, [] => if start < totalRange then [⟨"", start, totalRange⟩] else []
  | start, r :: rs =>
    (if start < r.start then [⟨"", start, r.start - 1⟩] else []) ++ alwaysIncludeRanges totalRange (r.stop + 1) rs

/-- The lines of the ranges that end before a function. -/
def typeDeclDefCode (fileContents : List String) (ranges : List LineRange) (funcRange : LineRange) : List String :=
  ((sortedBy LineRange.start ranges).filter fun r => r.stop < funcRange.start).flatMap (LineRange.slice fileContents)

/-- **`extractFuncsAndDeps`** -/
def extractFuncsAndDeps (charClass : CharClass) (keep : LineRange → Bool) (fileContents : List String)
    (tags : List CtagsLine) (oldmap : Option FuncMap) : List (String × ExtractedFunction) :=
  let totalRange := tags.length - 1
  let ranges := funcRanges charClass keep fileContents tags
  let alwaysIncludeRanges := alwaysIncludeRanges totalRange 0 (sortedBy LineRange.start ranges)
  let entries := (funcRangesMap ranges).entries.filter fun entry => oldmap.all fun oldmap => entry.1 ∈ oldmap.keys
  entries.map fun (funcSym, funcRange) =>
    let funcCodeLines := String.join (funcRange.slice fileContents)
    (funcSym,
      { typeDeclDefCodeLines := String.join (typeDeclDefCode fileContents alwaysIncludeRanges funcRange)
        funcCodeLines
        dependFunctions := match oldmap with
          | some oldmap => oldmap.dependFunctions funcSym
          | none => extractDependFunctions charClass funcSym funcCodeLines (funcRangesMap ranges).keys })

/-! ## Ranges and the lines between them -/

/-- The lines at some places. -/
def linesAt (fileContents : List String) (places : List Nat) : List String := places.filterMap (fileContents[·]?)

namespace LineRange

variable {r r' : LineRange} {i : Nat}

/-- The places of a range are its lines, both ends included. -/
theorem mem_places : i ∈ r.places ↔ r.start ≤ i ∧ i ≤ r.stop := by
  rw [places, List.mem_range'_1]
  omega

/-- Each line is one place. -/
theorem nodup_places (r : LineRange) : r.places.Nodup := List.nodup_range'

/-- Whether two ranges are apart does not depend on their order. -/
theorem Apart.symm (h : r.Apart r') : r'.Apart r := h.elim .inr .inl

/-- Ranges that are apart share no line. -/
theorem Apart.disjoint (h : r.Apart r') : List.Disjoint r.places r'.places := by
  intro i hi hi'
  rw [mem_places] at hi hi'
  rcases h with h | h <;> omega

/-- The slice of a range is the text of its lines. -/
theorem slice_eq (fileContents : List String) (r : LineRange) : r.slice fileContents =
    linesAt fileContents r.places := by
  rw [slice, linesAt, places]
  generalize r.start = start
  generalize r.stop + 1 - start = count
  induction count generalizing start with
  | zero => simp
  | succ count ih =>
    rw [List.range'_succ, List.filterMap_cons, ← ih, ← List.tail_drop]
    rcases hdrop : fileContents.drop start with - | ⟨line, lines⟩
    · rw [List.getElem?_eq_none (List.drop_eq_nil_iff.mp hdrop)]
      simp
    · have hline : fileContents[start]? = some line := by
        rw [← List.head?_drop, hdrop]
        rfl
      rw [hline]
      rfl

end LineRange

/-- **The function begins where its header begins**, at or above the line of the tag. -/
theorem headerStart_le (charClass : CharClass) (allLines : List String) (i : Nat) : headerStart charClass allLines i ≤ i := by
  induction i with
  | zero => exact le_refl _
  | succ i ih =>
    rw [headerStart]
    split
    · exact le_refl _
    · exact ih.trans (Nat.le_succ i)

/-- No range ends before it starts: its header begins at the line of the tag or earlier, and the tag
does not end before its line. -/
theorem createRangeFromCtagsLine_le (charClass : CharClass) (allLines : List String) (tag : CtagsLine) :
    (createRangeFromCtagsLine charClass allLines tag).start ≤
      (createRangeFromCtagsLine charClass allLines tag).stop := by
  have hline : tag.line ≤ tag.endLine.getD tag.line := by
    cases hend : tag.endLine with
    | none => exact le_refl _
    | some stop => exact tag.line_le stop hend
  exact (headerStart_le charClass allLines _).trans (Nat.sub_le_sub_right hline 1)

/-- **Ranges one after another**, from some line on. -/
def InOrder : Nat → List LineRange → Prop
  | _, [] => True
  | start, r :: rs => start ≤ r.start ∧ r.start ≤ r.stop ∧ InOrder (r.stop + 1) rs

/-- Ranges in order all start at the place they are in order from, or behind it. -/
theorem InOrder.start_le {start : Nat} {rs : List LineRange} (h : InOrder start rs) {r : LineRange} (hr : r ∈ rs) :
    start ≤ r.start := by
  induction rs generalizing start with
  | nil => exact absurd hr List.not_mem_nil
  | cons r₁ rs ih =>
    rcases List.mem_cons.mp hr with rfl | hr
    · exact h.1
    · exact (h.1.trans (h.2.1.trans (Nat.le_succ _))).trans (ih h.2.2 hr)

/-- Ranges that are apart are in order once they are sorted. -/
theorem inOrder_of_pairwise {rs : List LineRange} (hsorted : rs.Pairwise fun r r' => r.start ≤ r'.start)
    (hapart : rs.Pairwise LineRange.Apart) (hwf : ∀ r ∈ rs, r.start ≤ r.stop) {start : Nat}
    (hstart : ∀ r ∈ rs, start ≤ r.start) : InOrder start rs := by
  induction rs generalizing start with
  | nil => trivial
  | cons r rs ih =>
    obtain ⟨hleast, hsorted⟩ := List.pairwise_cons.mp hsorted
    obtain ⟨hfirst, hapart⟩ := List.pairwise_cons.mp hapart
    have hr := hwf r List.mem_cons_self
    refine ⟨hstart r List.mem_cons_self, hr,
      ih hsorted hapart (fun r' hr' => hwf r' (List.mem_cons_of_mem _ hr')) fun r' hr' => ?_⟩
    have hle := hleast r' hr'
    have hwf' := hwf r' (List.mem_cons_of_mem _ hr')
    rcases hfirst r' hr' with hbefore | hafter
    · exact hbefore
    · omega

/-- What lies between ranges begins at or after the line from which they are in order, and is sorted. -/
theorem alwaysIncludeRanges_sorted (totalRange : Nat) {start : Nat} {rs : List LineRange} (h : InOrder start rs) :
    (∀ r ∈ alwaysIncludeRanges totalRange start rs, start ≤ r.start ∧ r.start ≤ r.stop) ∧
      (alwaysIncludeRanges totalRange start rs).Pairwise fun r r' => r.start < r'.start := by
  induction rs generalizing start with
  | nil =>
    rw [alwaysIncludeRanges]
    split
    · rename_i hlt
      simpa using hlt.le
    · simp
  | cons r rs ih =>
    obtain ⟨hstart, hr, hrest⟩ := h
    obtain ⟨hbounds, hsorted⟩ := ih hrest
    have hlater : ∀ r' ∈ alwaysIncludeRanges totalRange (r.stop + 1) rs, start ≤ r'.start ∧ r'.start ≤ r'.stop :=
      fun r' hr' => ⟨by have := (hbounds r' hr').1; omega, (hbounds r' hr').2⟩
    rw [alwaysIncludeRanges]
    split
    · rename_i hlt
      refine ⟨List.forall_mem_cons.mpr ⟨⟨le_refl _, Nat.le_sub_one_of_lt hlt⟩, hlater⟩,
        List.pairwise_cons.mpr ⟨fun r' hr' => ?_, hsorted⟩⟩
      have := (hbounds r' hr').1
      dsimp only
      omega
    · exact ⟨hlater, hsorted⟩

/-- An interval of lines cut in two. -/
theorem range'_split {a b c : Nat} (hab : a ≤ b) (hbc : b ≤ c) :
    List.range' a (c - a) = List.range' a (b - a) ++ List.range' b (c - b) := by
  have happend := List.range'_append_1 (s := a) (m := b - a) (n := c - b)
  rw [Nat.add_sub_of_le hab] at happend
  rw [happend]
  congr 1
  omega

/-- **The lines between the ranges**: those before a function that no range has. -/
theorem alwaysIncludeRanges_places (totalRange : Nat) {start : Nat} {rs : List LineRange} (h : InOrder start rs)
    {f : LineRange} (hf : f ∈ rs) :
    ((alwaysIncludeRanges totalRange start rs).filter fun r => r.stop < f.start).flatMap LineRange.places =
      (List.range' start (f.start - start)).filter fun i => ∀ r ∈ rs, i ∉ r.places := by
  induction rs generalizing start with
  | nil => exact absurd hf List.not_mem_nil
  | cons r rs ih =>
    obtain ⟨hstart, hr, hrest⟩ := h
    obtain ⟨hbounds, -⟩ := alwaysIncludeRanges_sorted totalRange hrest
    have hfstart : r.start ≤ f.start := by
      rcases List.mem_cons.mp hf with rfl | hf
      · exact le_refl _
      · have := hrest.start_le hf
        omega
    -- the lines before `r`, between `r` and `f`, and those of `r` itself
    have hbefore : ((if start < r.start then [⟨"", start, r.start - 1⟩] else ([] : List LineRange)).filter
        fun r => r.stop < f.start).flatMap LineRange.places = List.range' start (r.start - start) := by
      split
      · rename_i hlt
        have hends : decide (r.start - 1 < f.start) = true := decide_eq_true (by omega)
        rw [List.filter_cons_of_pos (p := fun r : LineRange => decide (r.stop < f.start)) hends, List.filter_nil,
          List.flatMap_singleton, LineRange.places, Nat.sub_add_cancel (by omega)]
      · rename_i hle
        rw [Nat.sub_eq_zero_of_le (Nat.le_of_not_lt hle)]
        rfl
    have hafter : ((alwaysIncludeRanges totalRange (r.stop + 1) rs).filter fun r => r.stop < f.start).flatMap
        LineRange.places = (List.range' (r.stop + 1) (f.start - (r.stop + 1))).filter
          fun i => ∀ r ∈ rs, i ∉ r.places := by
      rcases List.mem_cons.mp hf with rfl | hf
      · rw [Nat.sub_eq_zero_of_le (hr.trans (Nat.le_succ _)), List.filter_eq_nil_iff.mpr]
        · rfl
        · intro gap hgap
          have := hbounds gap hgap
          rw [decide_eq_true_eq]
          omega
      · exact ih hrest hf
    have hsplit : List.range' start (f.start - start) = List.range' start (r.start - start) ++
        (List.range' r.start (min f.start (r.stop + 1) - r.start) ++
          List.range' (r.stop + 1) (f.start - (r.stop + 1))) := by
      rw [range'_split hstart hfstart]
      rcases Nat.lt_or_ge r.stop f.start with hlt | hge
      · rw [min_eq_right hlt, range'_split (hr.trans (Nat.le_succ _)) hlt]
      · have hnone : f.start - (r.stop + 1) = 0 := by omega
        rw [min_eq_left (by omega), hnone, List.range'_zero, List.append_nil]
    rw [alwaysIncludeRanges, List.filter_append, List.flatMap_append, hbefore, hafter, hsplit, List.filter_append,
      List.filter_append]
    congr 1
    · symm
      refine List.filter_eq_self.mpr fun i hi => ?_
      rw [decide_eq_true_eq]
      intro r' hr' hplace
      rw [List.mem_range'_1] at hi
      rw [LineRange.mem_places] at hplace
      have hle : r.start ≤ r'.start := by
        rcases List.mem_cons.mp hr' with rfl | hr'
        · exact le_refl _
        · have := hrest.start_le hr'
          omega
      omega
    · have hown : (List.range' r.start (min f.start (r.stop + 1) - r.start)).filter
          (fun i => ∀ r' ∈ r :: rs, i ∉ r'.places) = [] := by
        refine List.filter_eq_nil_iff.mpr fun i hi => ?_
        rw [List.mem_range'_1] at hi
        rw [decide_eq_true_eq, List.forall_mem_cons, LineRange.mem_places]
        omega
      rw [hown, List.nil_append]
      refine List.filter_congr fun i hi => ?_
      rw [List.mem_range'_1] at hi
      rw [decide_eq_decide, List.forall_mem_cons, LineRange.mem_places]
      exact ⟨fun h => ⟨by omega, h⟩, And.right⟩

/-! ## What a function is given -/

/-- The map of the ranges has each function of them, with a range of that function. -/
theorem funcRangesMap_spec (ranges : List LineRange) :
    (∀ entry ∈ (funcRangesMap ranges).entries, entry.2 ∈ ranges ∧ entry.2.sym = entry.1) ∧
      ∀ f, f ∈ (funcRangesMap ranges).keys ↔ f ∈ ranges.map LineRange.sym := by
  have hfold : ∀ map : Dict String LineRange,
      (∀ entry ∈ (ranges.foldl (fun map r => map.insert r.sym r) map).entries,
        entry ∈ map.entries ∨ entry.2 ∈ ranges ∧ entry.2.sym = entry.1) ∧
      ∀ f, f ∈ (ranges.foldl (fun map r => map.insert r.sym r) map).keys ↔ f ∈ map.keys ∨
        f ∈ ranges.map LineRange.sym := by
    induction ranges with
    | nil => exact fun map => ⟨fun _ h => .inl h, fun f => by simp⟩
    | cons r ranges ih =>
      intro map
      obtain ⟨hentries, hkeys⟩ := ih (map.insert r.sym r)
      refine ⟨fun entry hentry => ?_, fun f => ?_⟩
      · rcases hentries entry hentry with hmem | ⟨hmem, hsym⟩
        · rcases (Dict.mem_insert ..).mp hmem with rfl | ⟨hold, -⟩
          · exact .inr ⟨List.mem_cons_self, rfl⟩
          · exact .inl hold
        · exact .inr ⟨List.mem_cons_of_mem _ hmem, hsym⟩
      · rw [List.foldl_cons, hkeys, Dict.mem_keys_insert, List.map_cons, List.mem_cons]
        tauto
  obtain ⟨hentries, hkeys⟩ := hfold .empty
  refine ⟨fun entry hentry => (hentries entry hentry).resolve_left List.not_mem_nil, fun f => ?_⟩
  rw [funcRangesMap, hkeys]
  exact or_iff_right List.not_mem_nil

/-- **The code of a function**: its own lines and, before it, those of no function, so that each line up to its end is
in one of them. -/
structure ExtractedFrom (fileContents : List String) (ranges : List LineRange) (r : LineRange)
    (code : ExtractedFunction) : Prop where
  funcCodeLines : code.funcCodeLines = String.join (linesAt fileContents r.places)
  typeDeclDefCodeLines : code.typeDeclDefCodeLines =
    String.join (linesAt fileContents ((List.range r.start).filter fun i => ∀ r' ∈ ranges, i ∉ r'.places))
  partition : (List.range (r.stop + 1)).Perm (((List.range r.start).filter fun i => ∀ r' ∈ ranges, i ∉ r'.places) ++
    (ranges.filter fun r' => r'.stop ≤ r.stop).flatMap LineRange.places)

/-- **Each line up to the end of a function** is a line of one range or of none. -/
theorem perm_range {ranges : List LineRange} (hapart : ranges.Pairwise LineRange.Apart)
    (hwf : ∀ r ∈ ranges, r.start ≤ r.stop) {r : LineRange} (hr : r ∈ ranges) :
    (List.range (r.stop + 1)).Perm (((List.range r.start).filter fun i => ∀ r' ∈ ranges, i ∉ r'.places) ++
      (ranges.filter fun r' => r'.stop ≤ r.stop).flatMap LineRange.places) := by
  have hnodup : ((ranges.filter fun r' => r'.stop ≤ r.stop).flatMap LineRange.places).Nodup :=
    List.nodup_flatMap.mpr ⟨fun r' _ => r'.nodup_places, (hapart.filter _).imp LineRange.Apart.disjoint⟩
  refine (List.perm_ext_iff_of_nodup List.nodup_range (List.nodup_append'.mpr
    ⟨List.nodup_range.filter _, hnodup, fun i hi hi' => ?_⟩)).mpr fun i => ?_
  · obtain ⟨r', hr', hplace⟩ := List.mem_flatMap.mp hi'
    have hfree := of_decide_eq_true (List.mem_filter.mp hi).2
    exact hfree r' (List.mem_filter.mp hr').1 hplace
  · rw [List.mem_append, List.mem_filter, List.mem_range, List.mem_range, List.mem_flatMap, decide_eq_true_eq]
    constructor
    · intro hi
      by_cases hplace : ∃ r' ∈ ranges, i ∈ r'.places
      · obtain ⟨r', hr', hplace⟩ := hplace
        refine .inr ⟨r', List.mem_filter.mpr ⟨hr', decide_eq_true ?_⟩, hplace⟩
        rw [LineRange.mem_places] at hplace
        by_cases hsame : r' = r
        · exact hsame ▸ le_refl _
        · have : Std.Symm LineRange.Apart := ⟨fun _ _ => LineRange.Apart.symm⟩
          have hwf' := hwf r hr
          rcases hapart.forall hr' hr hsame with hbefore | hafter <;> omega
      · refine .inl ⟨?_, fun r' hr' hmem => hplace ⟨r', hr', hmem⟩⟩
        by_contra hge
        exact hplace ⟨r, hr, LineRange.mem_places.mpr (by omega)⟩
    · rintro (⟨hi, -⟩ | ⟨r', hr', hplace⟩)
      · have := hwf r hr
        omega
      · have hstop := of_decide_eq_true (List.mem_filter.mp hr').2
        rw [LineRange.mem_places] at hplace
        omega

/-- **The context of a function** that is kept. -/
theorem typeDeclDefCode_eq (fileContents : List String) (totalRange : Nat) {ranges : List LineRange}
    (hapart : ranges.Pairwise LineRange.Apart) (hwf : ∀ r ∈ ranges, r.start ≤ r.stop) {r : LineRange}
      (hr : r ∈ ranges) :
    typeDeclDefCode fileContents (alwaysIncludeRanges totalRange 0 (sortedBy LineRange.start ranges)) r =
      linesAt fileContents ((List.range r.start).filter fun i => ∀ r' ∈ ranges, i ∉ r'.places) := by
  have hperm := sortedBy_perm LineRange.start ranges
  have horder : InOrder 0 (sortedBy LineRange.start ranges) :=
    inOrder_of_pairwise (sortedBy_pairwise _ _) (hperm.symm.pairwise hapart LineRange.Apart.symm)
      (fun r' hr' => hwf r' (mem_sortedBy.mp hr')) fun _ _ => Nat.zero_le _
  have hsorted := (alwaysIncludeRanges_sorted totalRange horder).2
  have hplaces := alwaysIncludeRanges_places totalRange horder (mem_sortedBy.mpr hr)
  rw [typeDeclDefCode, sortedBy_eq_of_perm (List.Perm.refl _) hsorted,
    show LineRange.slice fileContents = fun r => linesAt fileContents r.places from funext fun r => r.slice_eq _,
    linesAt, List.range_eq_range', ← Nat.sub_zero r.start]
  simp only [mem_sortedBy] at hplaces
  rw [← hplaces, List.filterMap_flatMap]
  rfl

/-- **Each function has its own lines and the lines before it that no function has**, where the ranges that are kept
do not overlap. The functions are those that are kept and, if there is a previous map, are in it. -/
theorem extractFuncsAndDeps_spec (charClass : CharClass) (keep : LineRange → Bool) (fileContents : List String)
    (tags : List CtagsLine) (oldmap : Option FuncMap)
    (hapart : (funcRanges charClass keep fileContents tags).Pairwise LineRange.Apart) :
    (∀ f, f ∈ (extractFuncsAndDeps charClass keep fileContents tags oldmap).map Prod.fst ↔
      f ∈ (funcRanges charClass keep fileContents tags).map LineRange.sym ∧ ∀ map ∈ oldmap, f ∈ map.keys) ∧
    ∀ entry ∈ extractFuncsAndDeps charClass keep fileContents tags oldmap,
      ∃ r ∈ funcRanges charClass keep fileContents tags, r.sym = entry.1 ∧
        ExtractedFrom fileContents (funcRanges charClass keep fileContents tags) r entry.2 := by
  have hwf : ∀ r ∈ funcRanges charClass keep fileContents tags, r.start ≤ r.stop := by
    intro r hr
    obtain ⟨tag, -, rfl⟩ := List.mem_map.mp (List.mem_filter.mp hr).1
    exact createRangeFromCtagsLine_le charClass fileContents tag
  obtain ⟨hentries, hkeys⟩ := funcRangesMap_spec (funcRanges charClass keep fileContents tags)
  refine ⟨fun f => ?_, fun entry hentry => ?_⟩
  · rw [← hkeys, extractFuncsAndDeps, List.map_map, Dict.keys]
    constructor
    · intro hf
      obtain ⟨entry, hentry, rfl⟩ := List.mem_map.mp hf
      obtain ⟨hmem, hold⟩ := List.mem_filter.mp hentry
      refine ⟨List.mem_map.mpr ⟨entry, hmem, rfl⟩, fun map hmap => ?_⟩
      rw [Option.mem_def.mp hmap] at hold
      exact of_decide_eq_true hold
    · intro h
      obtain ⟨hf, hold⟩ := h
      obtain ⟨entry, hmem, rfl⟩ := List.mem_map.mp hf
      refine List.mem_map.mpr ⟨entry, List.mem_filter.mpr ⟨hmem, ?_⟩, rfl⟩
      cases oldmap with
      | none => rfl
      | some map => exact decide_eq_true (hold map rfl)
  · obtain ⟨⟨f, r⟩, hmem, rfl⟩ := List.mem_map.mp hentry
    obtain ⟨hr, hsym⟩ := hentries _ (List.mem_filter.mp hmem).1
    exact ⟨r, hr, hsym, congrArg String.join (r.slice_eq fileContents),
      congrArg String.join (typeDeclDefCode_eq fileContents _ hapart hwf hr), perm_range hapart hwf hr⟩

/-- A type, the two functions `f` and `g`, and a variable between them. -/
def sampleContents : List String := ["int t;\n", "int f()\n", "{ }\n", "int x;\n", "int g() { }\n"]

/-- The functions of `sampleContents`, by name. -/
def sampleTags : List CtagsLine := [⟨⟨"f", 2, some 3⟩, by simp⟩, ⟨⟨"g", 5, none⟩, by simp⟩]

/-- The theorem at a small file, whose ranges are apart. -/
theorem extractFuncsAndDeps_sample :
    (∀ f, f ∈ (extractFuncsAndDeps .ascii (fun _ => true) sampleContents sampleTags none).map Prod.fst ↔
      f ∈ (funcRanges .ascii (fun _ => true) sampleContents sampleTags).map LineRange.sym ∧
        ∀ map ∈ (none : Option FuncMap), f ∈ map.keys) ∧
    ∀ entry ∈ extractFuncsAndDeps .ascii (fun _ => true) sampleContents sampleTags none,
      ∃ r ∈ funcRanges .ascii (fun _ => true) sampleContents sampleTags, r.sym = entry.1 ∧
        ExtractedFrom sampleContents (funcRanges .ascii (fun _ => true) sampleContents sampleTags) r entry.2 := by
  refine extractFuncsAndDeps_spec .ascii (fun _ => true) sampleContents sampleTags none ?_
  have hranges : funcRanges .ascii (fun _ => true) sampleContents sampleTags = [⟨"f", 1, 2⟩, ⟨"g", 4, 4⟩] := rfl
  rw [hranges, List.pairwise_pair]
  exact .inl (by decide)

end Assure
