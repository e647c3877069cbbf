import Mathlib.Data.List.Pairwise
import Mathlib.Data.List.Infix
import Mathlib.Data.List.MinMax
import Mathlib.Data.List.Nodup
import Mathlib.Data.List.Basic
import Mathlib.Order.Basic

/-!
# Static symbols made distinct

The uncollider goes through the files of a code base and renames a static symbol that an earlier file has. The name it
hands to `clang-rename` is one index longer than the name it records, so a name that was written is never the one that
was recorded for it. Whenever a symbol is renamed at all something is wrong afterwards: the run does what it is for
exactly if no symbol is listed twice, and then it changes nothing (`uncollided_iff`).

The equivalence is for every row of files whose processing completes. The two programs that list and
rename symbols are not part of the repository; they are a parameter with the documented behaviour.
-/

namespace Assure

/-! ## The two clang programs -/

/-- **What clang does**: `static-and-struct-def` lists the symbols a text defines, a line for each with the symbol as
its second word, and `clang-rename` gives one of them another name. Either may fail. -/
structure Clang (Text : Type) where
  staticAndStructDef : Text → Option (List (List String))
  clangRename : String → String → Text → Option Text
  /-- The symbols a text defines. -/
  defined : Text → List String
  listed : ∀ {text stdout}, staticAndStructDef text = some stdout → stdout.filterMap (·[1]?) = defined text
  renamed : ∀ {sym newName text text'}, clangRename sym newName text = some text' →
    sym ∈ defined text ∧ defined text' = (defined text).map fun name => if name = sym then newName else name

/-! ## One file -/

/-- A number at the end makes a name longer. -/
theorem length_lt_append_toString (sym : String) (index : Nat) : sym.length < (sym ++ toString index).length := by
  have hpos : 0 < (toString index).length := by
    rw [← String.length_toList, Nat.toString_eq_repr, Nat.toList_repr]
    exact Nat.length_toDigits_pos
  rw [String.length_append]
  omega

/-- **The search for a name**: while `new_sym` is used, the index is put behind it. -/
def freshSym (usedSymSet : List String) (newSym : String) (index : Nat) : String × Nat :=
  if newSym ∈ usedSymSet then freshSym usedSymSet (newSym ++ toString index) (index + 1) else (newSym, index)
termination_by (usedSymSet.filter fun sym => newSym.length ≤ sym.length).length
decreasing_by
  rename_i hused
  have hlonger := length_lt_append_toString newSym index
  -- the symbols that are long enough are fewer, as `newSym` itself is no more one of them
  have hsub : usedSymSet.filter (fun sym => (newSym ++ toString index).length ≤ sym.length) =
      (usedSymSet.filter fun sym => newSym.length ≤ sym.length).filter
        fun sym => (newSym ++ toString index).length ≤ sym.length := by
    rw [List.filter_filter]
    refine List.filter_congr fun sym _ => ?_
    rw [Bool.eq_iff_iff]
    simp only [Bool.and_eq_true, decide_eq_true_eq]
    omega
  rw [hsub]
  refine List.length_filter_lt_length_iff_exists.mpr ⟨newSym, ?_, ?_⟩
  · exact List.mem_filter.mpr ⟨hused, decide_eq_true (le_refl _)⟩
  · exact fun hlong => absurd (of_decide_eq_true hlong) (Nat.not_le_of_lt hlonger)

/-- **The loop over the symbols** of a file: what it has done so far, with the names it had written. -/
structure FileState (Text : Type) where
  usedSymSet : List String
  perFileRenamedSyms : List String
  text : Text
  renamings : List (String × String)

variable {Text : Type} (clang : Clang Text)

/-- One symbol of the listing. -/
def visitSym (st : FileState Text) (sym : String) : Option (FileState Text) :=
  if sym ∈ st.usedSymSet then
    let (newSym, index) := freshSym st.usedSymSet (sym ++ toString 0) 0
    let newName := newSym ++ toString index
    (clang.clangRename sym newName st.text).map fun text =>
      { usedSymSet := st.usedSymSet
        perFileRenamedSyms := newSym :: st.perFileRenamedSyms
        text
        renamings := st.renamings ++ [(sym, newName)] }
  else some { st with usedSymSet := sym :: st.usedSymSet }

/-- **`run_filter`**, with the names that are used before and after. -/
def runFilter (usedSymSet : List String) (cFile : Text) : Option (FileState Text) :=
  (clang.staticAndStructDef cFile).bind fun stdout =>
    ((stdout.filterMap (·[1]?)).foldlM (visitSym clang) ⟨usedSymSet, [], cFile, []⟩).map fun st =>
      { st with usedSymSet := st.perFileRenamedSyms ++ st.usedSymSet }

/-! ## A code base -/

/-- **A file that was processed**: its text before and after, and what was renamed in it. -/
structure OutputFile (Text : Type) where
  cFile : Text
  text : Text
  renamings : List (String × String)

/-- **`uncollide`**: the files one after another, if no call of clang fails. -/
def uncollide (usedSymSet : List String) : List Text → Option (List String × List (OutputFile Text))
  | [] => some (usedSymSet, [])
  | cFile :: cFiles =>
    (runFilter clang usedSymSet cFile).bind fun st =>
      (uncollide st.usedSymSet cFiles).map fun (used, outputs) => (used, ⟨cFile, st.text, st.renamings⟩ :: outputs)

/-- The name a symbol has after some renamings. -/
def finalName (renamings : List (String × String)) (sym : String) : String :=
  renamings.foldl (fun name rename => if name = rename.1 then rename.2 else name) sym

/-- **What the uncollider is for.** -/
structure Uncollided (usedSymSet : List String) (outputs : List (OutputFile Text)) : Prop where
  distinct : outputs.Pairwise fun file other => List.Disjoint (clang.defined file.text) (clang.defined other.text)
  recorded : ∀ file ∈ outputs, ∀ sym ∈ clang.defined file.text, sym ∈ usedSymSet
  injective : ∀ file ∈ outputs, ∀ sym ∈ clang.defined file.cFile, ∀ other ∈ clang.defined file.cFile,
    finalName file.renamings sym = finalName file.renamings other → sym = other

/-! ## Names grow -/

variable {clang}

/-- A fresh name is no shorter than the one asked for. -/
theorem length_le_freshSym (usedSymSet : List String) (newSym : String) (index : Nat) :
    newSym.length ≤ (freshSym usedSymSet newSym index).1.length := by
  induction newSym, index using freshSym.induct usedSymSet with
  | case1 newSym index hused ih =>
    rw [freshSym, if_pos hused]
    exact (length_lt_append_toString newSym index).le.trans ih
  | case2 newSym index hfree => rw [freshSym, if_neg hfree]

/-- **Renamings that lengthen** names. -/
abbrev Lengthening (renamings : List (String × String)) : Prop :=
  ∀ rename ∈ renamings, rename.1.length < rename.2.length

/-- Renamings in two rows are made one after the other. -/
theorem finalName_append (front back : List (String × String)) (sym : String) :
    finalName (front ++ back) sym = finalName back (finalName front sym) := List.foldl_append

/-- The first renaming comes first. -/
theorem finalName_cons (rename : String × String) (back : List (String × String)) (sym : String) :
    finalName (rename :: back) sym = finalName back (if sym = rename.1 then rename.2 else sym) := rfl

/-- A symbol that no renaming is about keeps its name. -/
theorem finalName_eq_self {renamings : List (String × String)} {sym : String}
    (h : ∀ rename ∈ renamings, rename.1 ≠ sym) : finalName renamings sym = sym := by
  induction renamings with
  | nil => rfl
  | cons rename renamings ih =>
    rw [finalName_cons, if_neg (h rename List.mem_cons_self).symm]
    exact ih fun other hother => h other (List.mem_cons_of_mem _ hother)

/-- Renamings that lengthen names shorten none. -/
theorem length_le_finalName {renamings : List (String × String)} (h : Lengthening renamings) (sym : String) :
    sym.length ≤ (finalName renamings sym).length := by
  induction renamings generalizing sym with
  | nil => exact le_refl _
  | cons rename renamings ih =>
    rw [finalName_cons]
    refine le_trans ?_ (ih (fun other hother => h other (List.mem_cons_of_mem _ hother)) _)
    split
    · rename_i heq
      exact heq ▸ (h rename List.mem_cons_self).le
    · exact le_refl _

/-! ## What the loop over a file keeps -/

/-- **A file with some symbols renamed**, to longer names. -/
structure RenamedFile (clang : Clang Text) (file : OutputFile Text) : Prop where
  defined : clang.defined file.text = (clang.defined file.cFile).map (finalName file.renamings)
  lengthening : Lengthening file.renamings
  /-- What was renamed is what some symbol was called at that time. -/
  called : ∀ front rename back, file.renamings = front ++ rename :: back →
    ∃ sym ∈ clang.defined file.cFile, finalName front sym = rename.1

/-- **The invariant** of the loop over the symbols of a file. -/
structure Renaming (clang : Clang Text) (usedSymSet : List String) (cFile : Text) (st : FileState Text) : Prop where
  file : RenamedFile clang ⟨cFile, st.text, st.renamings⟩
  /-- What is recorded for a renaming is shorter than what was written. -/
  shorter : ∀ sym ∈ st.perFileRenamedSyms, ∃ rename ∈ st.renamings, sym.length < rename.2.length
  used : ∀ sym ∈ st.usedSymSet, sym ∈ usedSymSet ∨ sym ∈ clang.defined cFile

/-- Before the first symbol nothing is renamed. -/
theorem Renaming.start (usedSymSet : List String) (cFile : Text) :
    Renaming clang usedSymSet cFile ⟨usedSymSet, [], cFile, []⟩ where
  file := ⟨(List.map_id _).symm, List.forall_mem_nil _, fun _ _ _ h => absurd h.symm (by simp)⟩
  shorter := List.forall_mem_nil _
  used _ h := .inl h

/-- **One symbol** keeps the invariant. -/
theorem Renaming.visitSym {usedSymSet : List String} {cFile : Text} {st st' : FileState Text} {sym : String}
    (h : Renaming clang usedSymSet cFile st) (hsym : sym ∈ clang.defined cFile)
    (hvisit : visitSym clang st sym = some st') : Renaming clang usedSymSet cFile st' := by
  rw [Assure.visitSym] at hvisit
  split at hvisit
  · rename_i hused
    obtain ⟨text, htext, rfl⟩ := Option.map_eq_some_iff.mp hvisit
    obtain ⟨hmem, hdefined⟩ := clang.renamed htext
    have hnew := length_le_freshSym st.usedSymSet (sym ++ toString 0) 0
    have hzero := length_lt_append_toString sym 0
    have hname := length_lt_append_toString (freshSym st.usedSymSet (sym ++ toString 0) 0).1
      (freshSym st.usedSymSet (sym ++ toString 0) 0).2
    refine ⟨⟨?_, ?_, ?_⟩, ?_, h.used⟩
    · rw [hdefined, h.file.defined, List.map_map]
      refine List.map_congr_left fun name _ => ?_
      rw [finalName_append]
      rfl
    · intro rename hrename
      rcases List.mem_append.mp hrename with hold | hlast
      · exact h.file.lengthening rename hold
      · rw [List.mem_singleton.mp hlast]
        exact (hzero.trans_le hnew).trans hname
    · intro front rename back hsplit
      rcases List.eq_nil_or_concat' back with rfl | ⟨back, last, rfl⟩
      · -- the last renaming: clang found the symbol in the text as it was
        obtain ⟨rfl, hlast⟩ := List.append_inj' hsplit rfl
        obtain rfl := List.singleton_inj.mp hlast
        exact List.mem_map.mp (h.file.defined ▸ hmem)
      · rw [← List.cons_append, ← List.append_assoc] at hsplit
        exact h.file.called front rename back (List.append_inj' hsplit rfl).1
    · intro recorded hrecorded
      rcases List.mem_cons.mp hrecorded with rfl | hold
      · exact ⟨_, List.mem_append_right _ (List.mem_singleton_self _), hname⟩
      · obtain ⟨rename, hrename, hshorter⟩ := h.shorter recorded hold
        exact ⟨rename, List.mem_append_left _ hrename, hshorter⟩
  · obtain rfl := Option.some.inj hvisit
    refine ⟨h.file, h.shorter, fun name hname => ?_⟩
    rcases List.mem_cons.mp hname with rfl | hold
    · exact .inr hsym
    · exact h.used name hold

/-- Every symbol that is visited keeps the state a renaming of the file, by induction over the
symbols. -/
theorem Renaming.foldlM {usedSymSet : List String} {cFile : Text} {syms : List String} {st st' : FileState Text}
    (h : Renaming clang usedSymSet cFile st) (hsyms : ∀ sym ∈ syms, sym ∈ clang.defined cFile)
    (hrun : syms.foldlM (Assure.visitSym clang) st = some st') : Renaming clang usedSymSet cFile st' := by
  induction syms generalizing st with
  | nil => exact Option.some.inj hrun ▸ h
  | cons sym syms ih =>
    obtain ⟨st₁, hvisit, hrest⟩ := Option.bind_eq_some_iff.mp hrun
    exact ih (h.visitSym (hsyms sym List.mem_cons_self) hvisit)
      (fun name hname => hsyms name (List.mem_cons_of_mem _ hname)) hrest

/-- **A file leaves no trace but its symbols** exactly if each is new; otherwise something is renamed. -/
theorem foldlM_visitSym {syms : List String} {st st' : FileState Text}
    (hrun : syms.foldlM (visitSym clang) st = some st') : st.renamings <+: st'.renamings ∧
      (st'.renamings = st.renamings ↔ syms.Nodup ∧ List.Disjoint syms st.usedSymSet) ∧
      (st'.renamings = st.renamings → st' = { st with usedSymSet := syms.reverse ++ st.usedSymSet }) := by
  induction syms generalizing st with
  | nil =>
    obtain rfl := Option.some.inj hrun
    exact ⟨List.prefix_refl _, by simp, fun _ => rfl⟩
  | cons sym syms ih =>
    obtain ⟨st₁, hvisit, hrest⟩ := Option.bind_eq_some_iff.mp hrun
    obtain ⟨hfront, hiff, hsame⟩ := ih hrest
    rw [visitSym] at hvisit
    split at hvisit
    · rename_i hused
      obtain ⟨text, -, rfl⟩ := Option.map_eq_some_iff.mp hvisit
      have hlonger : st.renamings.length < st'.renamings.length :=
        lt_of_lt_of_le (by simp) hfront.length_le
      have hne : st'.renamings ≠ st.renamings := fun heq => absurd (congrArg List.length heq) hlonger.ne'
      refine ⟨(List.prefix_append _ _).trans hfront, ⟨fun heq => absurd heq hne, fun hnew => ?_⟩,
        fun heq => absurd heq hne⟩
      exact absurd hused (fun hmem => hnew.2 List.mem_cons_self hmem)
    · rename_i hfree
      obtain rfl := Option.some.inj hvisit
      refine ⟨hfront, hiff.trans ?_, fun heq => ?_⟩
      · simp only [List.nodup_cons, List.disjoint_cons_right, List.disjoint_cons_left]
        tauto
      · rw [hsame heq, List.reverse_cons, List.append_assoc]
        rfl

/-- **What `run_filter` does** to a file and to the names that are used. -/
theorem runFilter_spec {usedSymSet : List String} {cFile : Text} {st : FileState Text}
    (h : runFilter clang usedSymSet cFile = some st) : RenamedFile clang ⟨cFile, st.text, st.renamings⟩ ∧
      (∀ sym ∈ st.usedSymSet, sym ∈ usedSymSet ∨ sym ∈ clang.defined cFile ∨
        ∃ rename ∈ st.renamings, sym.length < rename.2.length) ∧
      (st.renamings = [] ↔ (clang.defined cFile).Nodup ∧ List.Disjoint (clang.defined cFile) usedSymSet) ∧
      (st.renamings = [] → st.text = cFile ∧ st.usedSymSet = (clang.defined cFile).reverse ++ usedSymSet) := by
  obtain ⟨stdout, hstdout, hst⟩ := Option.bind_eq_some_iff.mp h
  obtain ⟨last, hrun, rfl⟩ := Option.map_eq_some_iff.mp hst
  rw [clang.listed hstdout] at hrun
  have hkept := (Renaming.start usedSymSet cFile).foldlM (fun _ hsym => hsym) hrun
  obtain ⟨-, hiff, hsame⟩ := foldlM_visitSym hrun
  refine ⟨hkept.file, fun sym hsym => ?_, hiff, fun hnone => ?_⟩
  · rcases List.mem_append.mp hsym with hrecorded | hused
    · exact .inr (.inr (hkept.shorter sym hrecorded))
    · exact (hkept.used sym hused).imp_right .inl
  · rw [hsame hnone]
    exact ⟨rfl, rfl⟩

/-! ## Whole runs -/

/-- **What a run does**: each file is renamed in by itself, and a used name is a name of some file or shorter than one
that was written. -/
theorem uncollide_spec {usedSymSet usedSymSet' : List String} {cFiles : List Text} {outputs : List (OutputFile Text)}
    (h : uncollide clang usedSymSet cFiles = some (usedSymSet', outputs)) :
    (∀ file ∈ outputs, RenamedFile clang file) ∧
      ∀ sym ∈ usedSymSet', sym ∈ usedSymSet ∨ (∃ file ∈ outputs, sym ∈ clang.defined file.cFile) ∨
        ∃ file ∈ outputs, ∃ rename ∈ file.renamings, sym.length < rename.2.length := by
  induction cFiles generalizing usedSymSet outputs with
  | nil =>
    obtain ⟨rfl, rfl⟩ := Prod.mk.inj (Option.some.inj h)
    exact ⟨List.forall_mem_nil _, fun _ hsym => .inl hsym⟩
  | cons cFile cFiles ih =>
    obtain ⟨st, hfile, hrest⟩ := Option.bind_eq_some_iff.mp h
    obtain ⟨⟨used, rest⟩, hrun, hsplit⟩ := Option.map_eq_some_iff.mp hrest
    obtain ⟨rfl, rfl⟩ := Prod.mk.inj hsplit
    obtain ⟨hrenamed, hused, -⟩ := runFilter_spec hfile
    obtain ⟨hothers, hnames⟩ := ih hrun
    refine ⟨List.forall_mem_cons.mpr ⟨hrenamed, hothers⟩, fun sym hsym => ?_⟩
    rcases hnames sym hsym with hbefore | ⟨file, hmem, hdefined⟩ | ⟨file, hmem, hshorter⟩
    · rcases hused sym hbefore with hold | hdefined | hshorter
      · exact .inl hold
      · exact .inr (.inl ⟨_, List.mem_cons_self, hdefined⟩)
      · exact .inr (.inr ⟨_, List.mem_cons_self, hshorter⟩)
    · exact .inr (.inl ⟨file, List.mem_cons_of_mem _ hmem, hdefined⟩)
    · exact .inr (.inr ⟨file, List.mem_cons_of_mem _ hmem, hshorter⟩)

/-- **Nothing is renamed** exactly if no symbol is listed twice. -/
theorem uncollide_untouched {usedSymSet usedSymSet' : List String} {cFiles : List Text}
    {outputs : List (OutputFile Text)} (h : uncollide clang usedSymSet cFiles = some (usedSymSet', outputs)) :
    ((∀ file ∈ outputs, file.renamings = []) ↔
      (cFiles.flatMap clang.defined).Nodup ∧ List.Disjoint (cFiles.flatMap clang.defined) usedSymSet) ∧
    ((∀ file ∈ outputs, file.renamings = []) → outputs = cFiles.map (fun cFile => ⟨cFile, cFile, []⟩) ∧
      ∀ sym, sym ∈ usedSymSet' ↔ sym ∈ usedSymSet ∨ sym ∈ cFiles.flatMap clang.defined) := by
  induction cFiles generalizing usedSymSet outputs with
  | nil =>
    obtain ⟨rfl, rfl⟩ := Prod.mk.inj (Option.some.inj h)
    simp
  | cons cFile cFiles ih =>
    obtain ⟨st, hfile, hrest⟩ := Option.bind_eq_some_iff.mp h
    obtain ⟨⟨used, rest⟩, hrun, hsplit⟩ := Option.map_eq_some_iff.mp hrest
    obtain ⟨rfl, rfl⟩ := Prod.mk.inj hsplit
    obtain ⟨-, -, hiff, hsame⟩ := runFilter_spec hfile
    obtain ⟨hiffs, hsames⟩ := ih hrun
    rw [List.forall_mem_cons]
    dsimp only
    refine ⟨?_, fun ⟨hnone, hnones⟩ => ?_⟩
    · rw [List.flatMap_cons, List.nodup_append', List.disjoint_append_left]
      constructor
      · intro ⟨hnone, hnones⟩
        have hused := (hsame hnone).2
        have hnew := hiff.mp hnone
        have hnews := hiffs.mp hnones
        rw [hused, List.disjoint_append_right, List.disjoint_reverse_right] at hnews
        exact ⟨⟨hnew.1, hnews.1, List.disjoint_symm hnews.2.1⟩, hnew.2, hnews.2.2⟩
      · intro ⟨⟨hnodup, hnodups, hcross⟩, hfree, hfrees⟩
        have hnone := hiff.mpr ⟨hnodup, hfree⟩
        refine ⟨hnone, hiffs.mpr ⟨hnodups, ?_⟩⟩
        rw [(hsame hnone).2, List.disjoint_append_right, List.disjoint_reverse_right]
        exact ⟨List.disjoint_symm hcross, hfrees⟩
    · obtain ⟨hrest, hused⟩ := hsames hnones
      refine ⟨?_, fun sym => ?_⟩
      · rw [hrest, List.map_cons, (hsame hnone).1, hnone]
      · rw [hused, (hsame hnone).2, List.mem_append, List.mem_reverse, List.flatMap_cons, List.mem_append]
        tauto

/-- **A longest name that was written** stays in its file, and another symbol of the file was given it. -/
theorem RenamedFile.longest {file : OutputFile Text} {rename : String × String} (h : RenamedFile clang file)
    (hmem : rename ∈ file.renamings) (hlongest : ∀ other ∈ file.renamings, other.2.length ≤ rename.2.length) :
    ∃ sym ∈ clang.defined file.cFile, sym ≠ rename.2 ∧ finalName file.renamings sym = rename.2 := by
  obtain ⟨front, back, hsplit⟩ := List.append_of_mem hmem
  obtain ⟨sym, hsym, hcalled⟩ := h.called front rename back hsplit
  have hlonger := h.lengthening rename hmem
  have hgrown : sym.length ≤ rename.1.length := by
    rw [← hcalled]
    exact length_le_finalName (fun other hother => h.lengthening other (hsplit ▸ List.mem_append_left _ hother)) sym
  refine ⟨sym, hsym, fun heq => ?_, ?_⟩
  · rw [heq] at hgrown
    omega
  · rw [hsplit, finalName_append, hcalled, finalName_cons, if_pos rfl]
    refine finalName_eq_self fun other hother heq => ?_
    have hother : other ∈ file.renamings := hsplit ▸ List.mem_append_right _ (List.mem_cons_of_mem _ hother)
    have hlengthened := h.lengthening other hother
    have hbound := hlongest other hother
    rw [heq] at hlengthened
    omega

/-- **Where something was renamed** the uncollider has not done what it is for. -/
theorem untouched_of_uncollided {usedSymSet : List String} {cFiles : List Text} {outputs : List (OutputFile Text)}
    (hrun : uncollide clang [] cFiles = some (usedSymSet, outputs)) (h : Uncollided clang usedSymSet outputs) :
    ∀ file ∈ outputs, file.renamings = [] := by
  obtain ⟨hrenamed, hused⟩ := uncollide_spec hrun
  by_contra! hsome
  obtain ⟨file, hfile, hne⟩ := hsome
  have hwritten : outputs.flatMap OutputFile.renamings ≠ [] := fun hnil =>
    hne (List.flatMap_eq_nil_iff.mp hnil file hfile)
  -- a longest of all the names that were written
  obtain ⟨rename, hmax⟩ := Option.ne_none_iff_exists'.mp
    (mt (List.argmax_eq_none (f := fun rename : String × String => rename.2.length)).mp hwritten)
  obtain ⟨file, hfile, hmem⟩ := List.mem_flatMap.mp (List.argmax_mem hmax)
  have hlongest : ∀ file ∈ outputs, ∀ other ∈ file.renamings, other.2.length ≤ rename.2.length :=
    fun file hfile other hother =>
      List.le_of_mem_argmax (f := fun rename : String × String => rename.2.length)
        (List.mem_flatMap.mpr ⟨file, hfile, hother⟩) hmax
  obtain ⟨sym, hsym, hother, hfinal⟩ := (hrenamed file hfile).longest hmem (hlongest file hfile)
  have hout : rename.2 ∈ clang.defined file.text := by
    rw [(hrenamed file hfile).defined]
    exact List.mem_map.mpr ⟨sym, hsym, hfinal⟩
  -- it is recorded as a used name, so some file had it from the start
  rcases hused _ (h.recorded file hfile _ hout) with hnil | ⟨first, hfirst, horiginal⟩ |
    ⟨later, hlater, longer, hmem', hlt⟩
  · exact absurd hnil List.not_mem_nil
  · have hkept : finalName first.renamings rename.2 = rename.2 := by
      refine finalName_eq_self fun other hmem' heq => ?_
      have hlengthened := (hrenamed first hfirst).lengthening other hmem'
      have hbound := hlongest first hfirst other hmem'
      rw [heq] at hlengthened
      omega
    by_cases hsame : first = file
    · subst hsame
      exact hother (h.injective first hfile sym hsym _ horiginal (hfinal.trans hkept.symm))
    · have hdefined : rename.2 ∈ clang.defined first.text := by
        rw [(hrenamed first hfirst).defined]
        exact List.mem_map.mpr ⟨rename.2, horiginal, hkept⟩
      have : Std.Symm fun file other : OutputFile Text =>
          List.Disjoint (clang.defined file.text) (clang.defined other.text) := ⟨fun _ _ => List.disjoint_symm⟩
      exact h.distinct.forall hfirst hfile hsame hdefined hout
  · exact absurd (hlongest later hlater longer hmem') (not_le_of_gt hlt)

/-- **What the uncollider is for** comes out of a run exactly if no symbol is listed twice, in one file or in two.
Every run that completes is meant, whatever the compiler lists and however often a name is tried. -/
theorem uncollided_iff {usedSymSet : List String} {cFiles : List Text} {outputs : List (OutputFile Text)}
    (h : uncollide clang [] cFiles = some (usedSymSet, outputs)) :
    Uncollided clang usedSymSet outputs ↔ (cFiles.flatMap clang.defined).Nodup := by
  obtain ⟨hiff, hsame⟩ := uncollide_untouched h
  constructor
  · intro huncollided
    exact (hiff.mp (untouched_of_uncollided h huncollided)).1
  · intro hnodup
    obtain ⟨rfl, hused⟩ := hsame (hiff.mpr ⟨hnodup, List.disjoint_nil_right _⟩)
    obtain ⟨-, hdistinct⟩ := List.nodup_flatMap.mp hnodup
    refine ⟨List.pairwise_map.mpr hdistinct, ?_, ?_⟩
    · rw [List.forall_mem_map]
      exact fun cFile hmem sym hsym => (hused sym).mpr (.inr (List.mem_flatMap.mpr ⟨cFile, hmem, hsym⟩))
    · rw [List.forall_mem_map]
      exact fun cFile _ sym _ other _ heq => heq

/-- A clang for which a text is no more than the symbols it defines. -/
def symbolLists : Clang (List String) where
  staticAndStructDef text := some (text.map fun sym => ["Static:", sym])
  clangRename sym newName text :=
    if sym ∈ text then some (text.map fun name => if name = sym then newName else name) else none
  defined := id
  listed h := by
    obtain rfl := Option.some.inj h
    simp [List.filterMap_map]
  renamed h := by
    split at h
    · rename_i hmem
      obtain rfl := Option.some.inj h
      exact ⟨hmem, rfl⟩
    · exact absurd h (by simp)

/-- Two files, each with its own symbol. -/
theorem uncollided_two : Uncollided symbolLists ["y", "x"] [⟨["x"], ["x"], []⟩, ⟨["y"], ["y"], []⟩] ↔
    ["x", "y"].Nodup :=
  @uncollided_iff _ symbolLists _ [["x"], ["y"]] _ rfl

/-- **Two files with a static `x`**: the second one's is written as `x00`, and `x0` is recorded. -/
theorem uncollided_not : ∃ usedSymSet outputs,
    uncollide symbolLists [] [["x"], ["x"]] = some (usedSymSet, outputs) ∧
      ¬ Uncollided symbolLists usedSymSet outputs := by
  have hfresh : freshSym ["x"] ("x" ++ Nat.repr 0) 0 = ("x0", 0) := by
    rw [freshSym, if_neg (by decide)]
    rfl
  have hfirst : runFilter symbolLists [] ["x"] = some ⟨["x"], [], ["x"], []⟩ := rfl
  have hsecond : runFilter symbolLists ["x"] ["x"] = some ⟨["x0", "x"], ["x0"], ["x00"], [("x", "x00")]⟩ := by
    simp [runFilter, symbolLists, visitSym, hfresh]
    rfl
  refine ⟨["x0", "x"], [⟨["x"], ["x"], []⟩, ⟨["x"], ["x00"], [("x", "x00")]⟩], ?_, fun h => ?_⟩
  · simp [uncollide, hfirst, hsecond]
  · have hrecorded := h.recorded _ (List.mem_cons_of_mem _ List.mem_cons_self) "x00" List.mem_cons_self
    exact absurd hrecorded (by decide)

end Assure
