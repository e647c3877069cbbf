import Assure.Library.Collections
import Assure.Library.FindAll
import Assure.Library.Numerals

/-!
# The test files of a suite

A suite has the C tests of a project and perhaps the same tests in Rust. `loadSuite` makes one `TestFile` of
each file with tests, named for the file; the name of its module in the crate comes from that. Where an
earlier file has the module's name, the place in the list goes to the end of the name. The new name is not
looked up again.

The equivalence is for files of any names and contents. Compiled means that each file has a module
of its own with its source in the crate.
-/

namespace Assure

open Assure.Library Assure.Library.Pattern

/-! ## Files -/

/-- A file below `c/` or `rust/`, in the order of the walk. -/
structure FoundFile where
  path : String
  source : String

/-- `os.path.basename` -/
def basename (path : String) : String := String.ofList (path.toList.reverse.takeWhile (· ≠ '/')).reverse

/-- `os.path.splitext(name)[0]`: what stands before the last dot, unless nothing but dots does. -/
def splitextRoot (name : String) : String :=
  let front := ((name.toList.reverse.dropWhile (· ≠ '.')).tail).reverse
  if (front.reverse.takeWhile (· ≠ '/')).any (· ≠ '.') then String.ofList front else name

/-- `re.sub(r"\W", "_", name)` -/
def wordsOnly (chars : CharClass) (name : String) : String :=
  String.ofList (name.toList.map fun c => if chars.word c then c else '_')

/-- `#\[test\]\s*(?:#\[[^\n]*\]\s*)*(?:pub\s+)?(?:unsafe\s+)?fn\s+(\w+)` -/
def testFunctionPattern (chars : CharClass) : Pattern (List Char) := do
  lit "#[test]"
  let _ ← many chars.space
  star do
    lit "#["
    let _ ← many (· ≠ '\n')
    lit "]"
    let _ ← many chars.space
  optional do
    lit "pub"
    let _ ← many1 chars.space
  optional do
    lit "unsafe"
    let _ ← many1 chars.space
  lit "fn"
  let _ ← many1 chars.space
  many1 chars.word

/-- **`testFunctionNames`** -/
def testFunctionNames (chars : CharClass) (source : String) : List String :=
  let lineComment : Pattern Unit := do
    lit "//"
    let _ ← many (· ≠ '\n')
  ((testFunctionPattern chars).findAll (lineComment.sub "" source).toList).map String.ofList

/-- `\bmain\s*\(` -/
def hasMain (chars : CharClass) (source : String) : Bool :=
  Pattern.found (do boundary chars; lit "main"; let _ ← many chars.space; lit "(") source

/-! ## Test files -/

/-- **`TestFile`** -/
structure TestFile where
  name : String
  module : String
  sources : List String
  tests : Option (List String)

/-- `TestFile(name, sources, tests)` -/
def TestFile.new (chars : CharClass) (name : String) (sources : List String) (tests : Option (List String)) :
    TestFile :=
  ⟨name, "tc_" ++ wordsOnly chars name, sources, tests⟩

/-- The files of a suite before any has been renamed. -/
def foundTestFiles (chars : CharClass) (rust c : List FoundFile) : List TestFile :=
  let cTests := c.filter fun file => hasMain chars file.source
  let files := rust.filterMap fun file =>
    let names := testFunctionNames chars file.source
    if names = [] then none
    else
      let stem := splitextRoot (basename file.path)
      let same := cTests.filter fun c => splitextRoot (basename c.path) = stem
      let origin := if same = [] then cTests else same
      some (.new chars stem (("rust/" ++ file.path) :: origin.map fun c => "c/" ++ c.path) (some names))
  if files = [] then
    cTests.map fun c => .new chars (wordsOnly chars (splitextRoot c.path)) ["c/" ++ c.path] none
  else files

/-- `"%s_%d" % (name, i)` -/
def suffixed (name : String) (i : Nat) : String := name ++ "_" ++ i.repr

/-- The loop that renames a file whose module an earlier file has. -/
def renameLoop (earlier : List TestFile) : List TestFile → List TestFile
  | [] => earlier
  | file :: files =>
    let i := earlier.length
    let file :=
      if earlier.any fun other => other.module = file.module then
        { file with name := suffixed file.name i, module := suffixed file.module i }
      else file
    renameLoop (earlier ++ [file]) files

/-- **`loadSuite`**, of the files that the walks find. -/
def loadSuite (chars : CharClass) (rust c : List FoundFile) : List TestFile :=
  renameLoop [] (foundTestFiles chars rust c)

/-! ## The crate -/

/-- `modules[testFile.module] = source` for every test file that was translated. -/
def translatedModules (files : List (TestFile × String)) : Dict String String :=
  files.foldl (fun modules file => modules.insert file.1.module file.2) Dict.empty

/-- `text.rstrip("\n") + "\n"` -/
def withOneNewline (text : String) : String :=
  String.ofList ((text.toList.reverse.dropWhile (· = '\n')).reverse ++ ['\n'])

/-- **`TestCrate.write`**: the text of `lib.rs`, and the files below `src/testcases`. -/
def TestCrate.write (translation : String) (modules : Dict String String) : String × List (String × String) :=
  (withOneNewline translation ++ String.join (modules.keys.map fun module =>
      "\n#[cfg(test)]\n#[path = \"testcases/" ++ module ++ ".rs\"]\nmod " ++ module ++ ";\n"),
    modules.entries.map fun e => (e.1 ++ ".rs", withOneNewline e.2))

/-- **Every test file has a module of its own**, and each is written and declared, whatever the
translations. -/
def EachCompiled (files : List TestFile) : Prop :=
  (files.map TestFile.module).Nodup ∧
    ∀ (translation : String) (sources : TestFile → String), ∀ file ∈ files,
      file.module ∈ (translatedModules (files.map fun file => (file, sources file))).keys ∧
        (file.module ++ ".rs", withOneNewline (sources file)) ∈
          (TestCrate.write translation (translatedModules (files.map fun file => (file, sources file)))).2

/-- One more file sets its module to its text, whatever the module was before. -/
theorem translatedModules_snoc (files : List (TestFile × String)) (file : TestFile × String) :
    translatedModules (files ++ [file]) = (translatedModules files).insert file.1.module file.2 := by
  rw [translatedModules, List.foldl_append]
  rfl

/-- Modules of different names keep their sources. -/
theorem mem_translatedModules {files : List (TestFile × String)} (h : (files.map fun f => f.1.module).Nodup) :
    ∀ file ∈ files, (file.1.module, file.2) ∈ (translatedModules files).entries := by
  induction files using List.reverseRecOn with
  | nil => exact fun _ hf => absurd hf List.not_mem_nil
  | append_singleton files last ih =>
    rw [List.map_append, List.map_singleton] at h
    obtain ⟨hfiles, -, hdisjoint⟩ := List.nodup_append.mp h
    intro file hfile
    rw [translatedModules_snoc, Dict.mem_insert]
    rcases List.mem_append.mp hfile with hfile | hfile
    · refine .inr ⟨ih hfiles file hfile, ?_⟩
      exact hdisjoint _ (List.mem_map_of_mem hfile) _ (List.mem_singleton_self _)
    · obtain rfl := List.mem_singleton.mp hfile
      exact .inl rfl

/-- Every file is compiled exactly if no two have one module. -/
theorem eachCompiled_iff {files : List TestFile} : EachCompiled files ↔ (files.map TestFile.module).Nodup := by
  refine ⟨And.left, fun h => ⟨h, fun translation sources file hfile => ?_⟩⟩
  have hnodup : ((files.map fun file => (file, sources file)).map fun f => f.1.module).Nodup := by
    rw [List.map_map]
    exact h
  have hmem := mem_translatedModules hnodup (file, sources file) (List.mem_map_of_mem hfile)
  exact ⟨List.mem_map_of_mem hmem, List.mem_map_of_mem hmem⟩

/-! ## Names that are taken -/

/-- **The name of a module is taken**: an earlier file had it, or the name of an earlier file was taken and
it is what that file is renamed to. -/
inductive Taken (modules : List String) : Nat → Prop
  | same {i j : Nat} {name : String} (hj : j < i) (hsame : modules[j]? = some name) (hname : modules[i]? = some name) :
    Taken modules i
  | renamed {i j : Nat} {name : String} (hj : j < i) (htaken : Taken modules j) (hold : modules[j]? = some name)
    (hname : modules[i]? = some (suffixed name j)) : Taken modules i

/-- The name of a module in the end. -/
def IsFinal (modules : List String) (i : Nat) (final : String) : Prop :=
  ∃ name, modules[i]? = some name ∧
    (Taken modules i ∧ final = suffixed name i ∨ ¬ Taken modules i ∧ final = name)

/-- The final name of a module is determined. -/
theorem IsFinal.unique {modules : List String} {i : Nat} {a b : String} (ha : IsFinal modules i a)
    (hb : IsFinal modules i b) : a = b := by
  obtain ⟨name, hname, ha⟩ := ha
  obtain ⟨name', hname', hb⟩ := hb
  obtain rfl := Option.some.inj (hname.symm.trans hname')
  rcases ha with ⟨htaken, rfl⟩ | ⟨hfree, rfl⟩ <;> rcases hb with ⟨htaken', rfl⟩ | ⟨hfree', rfl⟩
  · rfl
  · exact absurd htaken hfree'
  · exact absurd htaken' hfree
  · rfl

/-- Files with their final names. -/
def Renamed (modules : List String) (earlier : List TestFile) : Prop :=
  ∀ j, ∀ file, earlier[j]? = some file → IsFinal modules j file.module

/-- **The loop finds out what is taken.** -/
theorem taken_iff {modules : List String} {earlier : List TestFile} (h : Renamed modules earlier)
    {name : String} (hname : modules[earlier.length]? = some name) :
    (∃ file ∈ earlier, file.module = name) ↔ Taken modules earlier.length := by
  -- an earlier file with a given name, below any place
  have hfound : ∀ j, j ≤ earlier.length → ∀ i, i < j → ∀ name, modules[i]? = some name →
      ∃ file ∈ earlier, file.module = name ∧ ∃ k, k ≤ i ∧ earlier[k]? = some file := by
    intro j hj i hi
    induction i using Nat.strong_induction_on with
    | h i ih =>
      intro name hname
      have hlt : i < earlier.length := Nat.lt_of_lt_of_le hi hj
      have hfile : earlier[i]? = some earlier[i] := List.getElem?_eq_getElem hlt
      obtain ⟨name', hname', hfinal⟩ := h i _ hfile
      obtain rfl := Option.some.inj (hname.symm.trans hname')
      rcases hfinal with ⟨htaken, -⟩ | ⟨-, hmodule⟩
      · cases htaken with
        | same hki hsame hname' =>
          obtain rfl := Option.some.inj (hname.symm.trans hname')
          obtain ⟨file, hmem, hmodule, l, hl, hfile⟩ := ih _ hki (Nat.lt_trans hki hi) _ hsame
          exact ⟨file, hmem, hmodule, l, Nat.le_trans hl (Nat.le_of_lt hki), hfile⟩
        | @renamed _ k old hki htaken hold hname' =>
          obtain rfl := Option.some.inj (hname.symm.trans hname')
          have hklt : k < earlier.length := Nat.lt_trans hki hlt
          have hk : earlier[k]? = some earlier[k] := List.getElem?_eq_getElem hklt
          refine ⟨earlier[k], List.getElem_mem hklt, ?_, k, Nat.le_of_lt hki, hk⟩
          exact (h k _ hk).unique ⟨old, hold, .inl ⟨htaken, rfl⟩⟩
      · exact ⟨earlier[i], List.getElem_mem hlt, hmodule, i, Nat.le_refl i, hfile⟩
  constructor
  · rintro ⟨file, hfile, hmodule⟩
    obtain ⟨j, hj, hget⟩ := List.getElem_of_mem hfile
    have hget' : earlier[j]? = some file := hget ▸ List.getElem?_eq_getElem hj
    obtain ⟨old, hold, ⟨htaken, hfinal⟩ | ⟨-, hfinal⟩⟩ := h j file hget'
    · exact .renamed hj htaken hold (by rw [hname, ← hmodule, hfinal])
    · exact .same hj hold (by rw [hname, ← hmodule, hfinal])
  · intro htaken
    cases htaken with
    | same hj hsame hname' =>
      obtain rfl := Option.some.inj (hname.symm.trans hname')
      obtain ⟨file, hmem, hmodule, -⟩ := hfound _ (Nat.le_refl _) _ hj _ hsame
      exact ⟨file, hmem, hmodule⟩
    | @renamed _ k old hj htaken hold hname' =>
      obtain rfl := Option.some.inj (hname.symm.trans hname')
      have hk : earlier[k]? = some earlier[k] := List.getElem?_eq_getElem hj
      exact ⟨earlier[k], List.getElem_mem hj, (h k _ hk).unique ⟨old, hold, .inl ⟨htaken, rfl⟩⟩⟩

/-- **The names after the loop.** -/
theorem renameLoop_renamed {modules : List String} : ∀ {files earlier : List TestFile},
    Renamed modules earlier → modules.drop earlier.length = files.map TestFile.module →
    Renamed modules (renameLoop earlier files) ∧ (renameLoop earlier files).length = earlier.length + files.length
  | [], earlier, h, _ => ⟨h, rfl⟩
  | file :: files, earlier, h, hdrop => by
    have hname : modules[earlier.length]? = some file.module := by
      rw [← List.head?_drop, hdrop]
      rfl
    have htaken := taken_iff h hname
    rw [renameLoop]
    generalize hfile : (if (earlier.any fun other => decide (other.module = file.module)) = true then
        { file with name := suffixed file.name earlier.length, module := suffixed file.module earlier.length }
      else file) = file'
    have hfinal : IsFinal modules earlier.length file'.module := by
      refine ⟨file.module, hname, ?_⟩
      by_cases hany : ∃ other ∈ earlier, other.module = file.module
      · rw [if_pos (by simpa using hany)] at hfile
        exact .inl ⟨htaken.mp hany, by rw [← hfile]⟩
      · rw [if_neg (by simpa using hany)] at hfile
        exact .inr ⟨fun ht => hany (htaken.mpr ht), by rw [hfile]⟩
    have hearlier : Renamed modules (earlier ++ [file']) := by
      intro j other hother
      rw [List.getElem?_append] at hother
      split at hother
      · exact h j other hother
      · rename_i hj
        obtain ⟨hlt, rfl⟩ := List.getElem?_eq_some_iff.mp hother
        obtain rfl : j = earlier.length := by
          rw [List.length_singleton] at hlt
          omega
        simpa using hfinal
    obtain ⟨hrenamed, hlen⟩ := @renameLoop_renamed modules files _ hearlier (by
      rw [List.length_append, List.length_singleton, ← List.drop_drop, hdrop]
      rfl)
    refine ⟨hrenamed, ?_⟩
    rw [hlen]
    simp only [List.length_append, List.length_cons, List.length_nil]
    omega

/-- The number at the end of a name can be read back. -/
theorem suffixed_inj {a b : String} {i j : Nat} (h : suffixed a i = suffixed b j) : i = j := by
  have hdigits : ∀ (name : String) (n : Nat),
      ((suffixed name n).toList.reverse.takeWhile (· ≠ '_')).reverse = (Nat.repr n).toList := by
    intro name n
    have hne : ∀ c ∈ (Nat.repr n).toList.reverse, decide (c ≠ '_') = true := by
      intro c hc
      have hdigit := repr_isDigit n c (List.mem_reverse.mp hc)
      refine decide_eq_true ?_
      rintro rfl
      exact absurd hdigit (by decide)
    have htext : (suffixed name n).toList.reverse = (Nat.repr n).toList.reverse ++ '_' :: name.toList.reverse := by
      simp [suffixed]
    rw [htext, List.takeWhile_append_of_pos hne, List.takeWhile_cons_of_neg (by decide), List.append_nil,
      List.reverse_reverse]
  have heq := hdigits a i
  rw [h, hdigits b j] at heq
  exact repr_inj heq.symm

/-- **When the modules are different**: no file whose name is taken is renamed to the name of an earlier
file. -/
def NoneTakenTwice (modules : List String) : Prop :=
  ∀ i name, Taken modules i → modules[i]? = some name → ∀ j, j < i → modules[j]? ≠ some (suffixed name i)

/-- **The loop gives different names** exactly then. -/
theorem renameLoop_nodup_iff (files : List TestFile) :
    ((renameLoop [] files).map TestFile.module).Nodup ↔ NoneTakenTwice (files.map TestFile.module) := by
  obtain ⟨hrenamed, hlength⟩ := @renameLoop_renamed (files.map TestFile.module) files
    [] (fun j file hj => by simp at hj) rfl
  rw [List.length_nil, Nat.zero_add] at hlength
  generalize renameLoop [] files = final at hrenamed hlength
  have hfinal : ∀ i (hi : i < final.length), IsFinal (files.map TestFile.module) i final[i].module :=
    fun i hi => hrenamed i _ (List.getElem?_eq_getElem hi)
  have hpairs : (final.map TestFile.module).Nodup ↔
      ∀ i (hi : i < final.length) j (hj : j < i), final[j].module ≠ final[i].module := by
    rw [List.nodup_iff_pairwise_ne, List.pairwise_iff_getElem]
    simp only [List.length_map, List.getElem_map]
    exact ⟨fun h i hi j hj => h j i (Nat.lt_trans hj hi) hi hj, fun h j i _ hi hji => h i hi j hji⟩
  rw [hpairs]
  constructor
  · intro hdistinct i name htaken hname j hj hsame
    have hi : i < final.length := by
      rw [hlength, ← List.length_map (f := TestFile.module)]
      exact (List.getElem?_eq_some_iff.mp hname).1
    have hrenamedTo : final[i].module = suffixed name i := (hfinal i hi).unique ⟨name, hname, .inl ⟨htaken, rfl⟩⟩
    -- the earlier file has the name, or it was taken by one that is earlier still
    have hclash : ∀ j, j < i → (files.map TestFile.module)[j]? = some (suffixed name i) → False := by
      intro j
      induction j using Nat.strong_induction_on with
      | h j ih =>
        intro hj hsame
        have hjlt : j < final.length := Nat.lt_trans hj hi
        obtain ⟨old, hold, ⟨htaken', -⟩ | ⟨-, hmodule⟩⟩ := hfinal j hjlt
        · obtain rfl := Option.some.inj (hsame.symm.trans hold)
          cases htaken' with
          | same hk hsame' hname' =>
            obtain rfl := Option.some.inj (hname'.symm.trans hold)
            exact ih _ hk (Nat.lt_trans hk hj) hsame'
          | @renamed _ k old' hk htaken'' hold' hname' =>
            have hki := suffixed_inj (Option.some.inj (hname'.symm.trans hold))
            omega
        · obtain rfl := Option.some.inj (hsame.symm.trans hold)
          exact hdistinct i hi j hj (hmodule.trans hrenamedTo.symm)
    exact hclash j hj hsame
  · intro hnone i hi j hj heq
    have hjlt : j < final.length := Nat.lt_trans hj hi
    obtain ⟨name, hname, ⟨htaken, hmodule⟩ | ⟨hfree, hmodule⟩⟩ := hfinal i hi
    · obtain ⟨old, hold, ⟨-, hmodule'⟩ | ⟨-, hmodule'⟩⟩ := hfinal j hjlt
      · have hji : j = i := suffixed_inj (hmodule'.symm.trans (heq.trans hmodule))
        omega
      · exact hnone i name htaken hname j hj (by rw [hold, ← hmodule', heq, hmodule])
    · obtain ⟨old, hold, ⟨htaken', hmodule'⟩ | ⟨-, hmodule'⟩⟩ := hfinal j hjlt
      · exact hfree (.renamed hj htaken' hold (by rw [hname, ← hmodule, ← heq, hmodule']))
      · exact hfree (.same hj hold (by rw [hname, ← hmodule, ← heq, hmodule']))

/-- **When every test file is compiled**: each has a module of its own, which is written and declared whatever the
translation, exactly if no file whose name is taken is renamed to the name of an earlier one. -/
theorem loadSuite_eachCompiled_iff (chars : CharClass) (rust c : List FoundFile) :
    EachCompiled (loadSuite chars rust c) ↔
      NoneTakenTwice ((foundTestFiles chars rust c).map TestFile.module) := by
  rw [eachCompiled_iff]
  exact renameLoop_nodup_iff _

/-- `a.rs` and `a_2.rs`, and another `a.rs` in a directory. -/
theorem loadSuite_overwrites :
    ¬ EachCompiled (loadSuite .ascii
      [⟨"a.rs", "#[test] fn t() \x7b\x7d"⟩, ⟨"a_2.rs", "#[test] fn t() \x7b\x7d"⟩,
        ⟨"x/a.rs", "#[test] fn t() \x7b\x7d"⟩]
      []) := by
  rw [eachCompiled_iff]
  decide +kernel

end Assure
