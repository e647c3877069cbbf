import Assure.Testcases.Suite

/-!
# Scoring the tests

`score` looks each expected test of a file up among the tests that the built crate lists: the first one of
the file's module that is the name or ends in it. Each name is looked up on its own, so a name that is
expected twice finds one test twice, and a test in an inner module can come before the test of that name.

The equivalence is for every suite and listing, with names that are words, and for every outcome of
the runs. That the record of a file agrees with its rows is said for suites whose files have
distinct names.
-/

namespace Assure

open Assure.Library

/-- A row of `tests.csv`. -/
structure TestRow where
  file : String
  test : String
  verdict : String
  detail : String

/-- An entry of `result["files"]`. -/
structure FileRecord where
  module : String
  sources : List String
  translated : Bool
  tests : Dict String String

/-- `path.startswith(module + "::")` -/
def inModule (module path : String) : Bool := (module ++ "::").toList.isPrefixOf path.toList

/-- `path.endswith("::" + name)` -/
def endsIn (name path : String) : Bool := ("::" ++ name).toList.isSuffixOf path.toList

/-- **The test that a name is looked up to.** -/
def findTest (listed : List String) (module name : String) : Option String :=
  (listed.filter (inModule module)).find? fun path => path = module ++ "::" ++ name || endsIn name path

/-- The names of a file's tests, or those that its module has. -/
def expectedNames (listed : List String) (file : TestFile) : List String :=
  let names := file.tests.getD []
  if names ≠ [] then names
  else
    let paths := (listed.filter (inModule file.module)).map fun path =>
      String.ofList (path.toList.drop (file.module ++ "::").length)
    if paths ≠ [] then paths else ["*"]

section Score

variable (runTest : TestFile → Nat → String → String × String) (listed : List String) (translated : String → Bool)

/-- What a name is settled with: a verdict and its detail. `runTest` is what the run of a test gives for the
name at that place. -/
def settle (file : TestFile) (name : String) (k : Nat) : String × String :=
  if !translated file.module then ("untranslated", "the agent produced no test file that builds")
  else
    match findTest listed file.module name with
    | none => ("missing", "not in the translated test file")
    | some path => runTest file k path

/-- The rows of a file. -/
def fileRows (file : TestFile) : List TestRow :=
  (expectedNames listed file).zipIdx.map fun (name, k) =>
    let (verdict, detail) := settle runTest listed translated file name k
    ⟨file.name, name, verdict, detail⟩

/-- What `result["files"]` has of a file. -/
def fileRecord (file : TestFile) : FileRecord where
  module := file.module
  sources := file.sources
  translated := translated file.module
  tests := (fileRows runTest listed translated file).foldl
    (fun tests row => tests.insert row.test row.verdict) Dict.empty

/-- **The loop of `score`**: `result["files"]` and the rows. -/
def score (files : List TestFile) : Dict String FileRecord × List TestRow :=
  (files.foldl (fun records file => records.insert file.name (fileRecord runTest listed translated file)) Dict.empty,
    files.flatMap (fileRows runTest listed translated))

end Score

/-! ## One to one -/

/-- The tests that the names of a file are settled with, where it has been translated. -/
def settled (listed : List String) (module : String) (names : List String) : List (Option String) :=
  names.map (findTest listed module)

/-- **Expected names and built tests are paired one to one**: a name with a test of the module that it is the
last segment of, with `module::name` if there is one, no test twice, and no name without a test while one is
left. -/
structure OneToOne (listed : List String) (module : String) (names : List String) : Prop where
  ofModule : ∀ name ∈ names, ∀ path, findTest listed module name = some path →
    path ∈ listed ∧ inModule module path = true ∧ endsIn name path = true
  exact : ∀ name ∈ names, module ++ "::" ++ name ∈ listed →
    ∃ k : Nat, names[k]? = some name ∧ (settled listed module names)[k]? = some (some (module ++ "::" ++ name))
  once : ∀ (j k : Nat) path, j < k → (settled listed module names)[j]? = some (some path) →
    (settled listed module names)[k]? ≠ some (some path)
  noneLeft : ∀ (k : Nat) name, names[k]? = some name → (settled listed module names)[k]? = some none →
    ∀ path ∈ listed, inModule module path = true → endsIn name path = true →
      ∃ j : Nat, (settled listed module names)[j]? = some (some path)

/-- **When they are**: no name with a test is expected twice, and nothing that ends in a name is listed before
the test of that name. -/
structure NamesTell (listed : List String) (module : String) (names : List String) : Prop where
  distinct : ∀ (j k : Nat) name, j < k → names[j]? = some name → names[k]? = some name →
    ∀ path ∈ listed, inModule module path = true → endsIn name path = false
  exactFirst : ∀ name ∈ names, ∀ before after, listed = before ++ (module ++ "::" ++ name) :: after →
    module ++ "::" ++ name ∉ before → ∀ path ∈ before, inModule module path = true → endsIn name path = false

/-- A test of a module is in the module. -/
theorem inModule_exact (module name : String) : inModule module (module ++ "::" ++ name) = true := by
  rw [inModule, List.isPrefixOf_iff_prefix]
  exact ⟨name.toList, by simp⟩

/-- Its path ends in its name. -/
theorem endsIn_exact (module name : String) : endsIn name (module ++ "::" ++ name) = true := by
  rw [endsIn, List.isSuffixOf_iff_suffix]
  exact ⟨module.toList, by simp⟩

/-- The search is for the first test of the module that ends in the name. -/
theorem findTest_eq (listed : List String) (module name : String) :
    findTest listed module name = (listed.filter (inModule module)).find? (endsIn name) := by
  unfold findTest
  congr 1
  funext path
  by_cases hpath : path = module ++ "::" ++ name
  · rw [hpath, endsIn_exact]
    simp
  · simp [hpath]

/-- What is found for a name is a listed path in the module that ends in the name. -/
theorem findTest_some {listed : List String} {module name path : String}
    (h : findTest listed module name = some path) :
    path ∈ listed ∧ inModule module path = true ∧ endsIn name path = true := by
  rw [findTest_eq] at h
  obtain ⟨hlisted, hmodule⟩ := List.mem_filter.mp (List.mem_of_find?_eq_some h)
  exact ⟨hlisted, hmodule, List.find?_some h⟩

/-- Nothing is found exactly if no listed path of the module ends in the name. -/
theorem findTest_none {listed : List String} {module name : String} :
    findTest listed module name = none ↔
      ∀ path ∈ listed, inModule module path = true → endsIn name path = false := by
  rw [findTest_eq, List.find?_eq_none]
  constructor
  · intro h path hpath hmodule
    exact Bool.eq_false_iff.mpr (h path (List.mem_filter.mpr ⟨hpath, hmodule⟩))
  · intro h path hpath
    obtain ⟨hlisted, hmodule⟩ := List.mem_filter.mp hpath
    exact Bool.eq_false_iff.mp (h path hlisted hmodule)

/-- A name that is no path is the last segment of one only. -/
theorem endsIn_inj {name name' path : String} (hname : ':' ∉ name.toList) (hname' : ':' ∉ name'.toList)
    (h : endsIn name path = true) (h' : endsIn name' path = true) : name = name' := by
  have hlast : ∀ {name : String}, ':' ∉ name.toList → endsIn name path = true →
      (path.toList.reverse.takeWhile (· ≠ ':')).reverse = name.toList := by
    intro name hname h
    obtain ⟨front, hfront⟩ := List.isSuffixOf_iff_suffix.mp h
    have hne : ∀ c ∈ name.toList.reverse, decide (c ≠ ':') = true := by
      intro c hc
      refine decide_eq_true ?_
      rintro rfl
      exact hname (List.mem_reverse.mp hc)
    have htext : path.toList.reverse = name.toList.reverse ++ ':' :: ':' :: front.reverse := by
      rw [← hfront]
      simp
    rw [htext, List.takeWhile_append_of_pos hne, List.takeWhile_cons_of_neg (by decide), List.append_nil,
      List.reverse_reverse]
  exact String.toList_inj.mp ((hlast hname h).symm.trans (hlast hname' h'))

/-- What is settled for a name stands at the place of the name. -/
theorem settled_getElem? {listed : List String} {module : String} {names : List String} {k : Nat}
    {found : Option String} : (settled listed module names)[k]? = some found ↔
      ∃ name, names[k]? = some name ∧ findTest listed module name = found := by
  rw [settled, List.getElem?_map, Option.map_eq_some_iff]

/-- The first of the tests that end in a name is `module::name`, if none is listed before it. -/
theorem findTest_exact {listed : List String} {module name : String} (hlisted : module ++ "::" ++ name ∈ listed) :
    findTest listed module name = some (module ++ "::" ++ name) ↔
      ∀ before after, listed = before ++ (module ++ "::" ++ name) :: after → module ++ "::" ++ name ∉ before →
        ∀ path ∈ before, inModule module path = true → endsIn name path = false := by
  rw [findTest_eq]
  constructor
  · rintro h before after rfl hnot path hpath hmodule
    cases hfind : (before.filter (inModule module)).find? (endsIn name) with
    | none => exact Bool.eq_false_iff.mpr (List.find?_eq_none.mp hfind path (List.mem_filter.mpr ⟨hpath, hmodule⟩))
    | some found =>
      rw [List.filter_append, List.find?_append, hfind, Option.some_or] at h
      obtain rfl := Option.some.inj h
      exact absurd (List.mem_filter.mp (List.mem_of_find?_eq_some hfind)).1 hnot
  · intro h
    obtain ⟨before, after, rfl, hnot⟩ := List.eq_append_cons_of_mem hlisted
    have hnone : (before.filter (inModule module)).find? (endsIn name) = none := by
      refine List.find?_eq_none.mpr fun path hpath => ?_
      obtain ⟨hbefore, hmodule⟩ := List.mem_filter.mp hpath
      exact Bool.eq_false_iff.mp (h before after rfl hnot path hbefore hmodule)
    rw [List.filter_append, List.find?_append, hnone, Option.none_or,
      List.filter_cons_of_pos (inModule_exact module name), List.find?_cons_of_pos (endsIn_exact module name)]

/-- **The pairing is one to one exactly when the names tell.** -/
theorem oneToOne_iff {listed : List String} {module : String} {names : List String}
    (hnames : ∀ name ∈ names, ':' ∉ name.toList) :
    OneToOne listed module names ↔ NamesTell listed module names := by
  constructor
  · intro h
    refine ⟨?_, ?_⟩
    · intro j k name hjk hj hk path hlisted hmodule
      by_contra hends
      cases hfind : findTest listed module name with
      | none => exact hends (findTest_none.mp hfind path hlisted hmodule)
      | some found =>
        exact h.once j k found hjk (settled_getElem?.mpr ⟨name, hj, hfind⟩)
          (settled_getElem?.mpr ⟨name, hk, hfind⟩)
    · intro name hname before after hsplit
      have hlisted : module ++ "::" ++ name ∈ listed := by simp [hsplit]
      obtain ⟨k, hk, hsettled⟩ := h.exact name hname hlisted
      obtain ⟨name', hk', hfind⟩ := settled_getElem?.mp hsettled
      obtain rfl := Option.some.inj (hk.symm.trans hk')
      exact (findTest_exact hlisted).mp hfind before after hsplit
  · intro h
    refine ⟨fun name _ path hpath => findTest_some hpath, ?_, ?_, ?_⟩
    · intro name hname hlisted
      obtain ⟨k, hk, hget⟩ := List.getElem_of_mem hname
      have hk' : names[k]? = some name := hget ▸ List.getElem?_eq_getElem hk
      exact ⟨k, hk', settled_getElem?.mpr ⟨name, hk', (findTest_exact hlisted).mpr (h.exactFirst name hname)⟩⟩
    · intro j k path hjk hj hk
      obtain ⟨name, hname, hfind⟩ := settled_getElem?.mp hj
      obtain ⟨name', hname', hfind'⟩ := settled_getElem?.mp hk
      obtain ⟨hlisted, hmodule, hends⟩ := findTest_some hfind
      obtain rfl := endsIn_inj (hnames name (List.mem_of_getElem? hname)) (hnames name' (List.mem_of_getElem? hname'))
        hends (findTest_some hfind').2.2
      exact Bool.false_ne_true ((h.distinct j k name hjk hname hname' path hlisted hmodule).symm.trans hends)
    · intro k name hname hsettled path hlisted hmodule hends
      obtain ⟨name', hname', hfind⟩ := settled_getElem?.mp hsettled
      obtain rfl := Option.some.inj (hname.symm.trans hname')
      exact absurd ((findTest_none.mp hfind path hlisted hmodule).symm.trans hends) Bool.false_ne_true

/-! ## The result -/

section Result

variable {runTest : TestFile → Nat → String → String × String} {listed : List String} {translated : String → Bool}

/-- Rows of one name have one verdict where names with a test are not expected twice. -/
theorem fileRows_agree {file : TestFile} (h : translated file.module = false ∨
      NamesTell listed file.module (expectedNames listed file)) :
    ∀ a ∈ fileRows runTest listed translated file, ∀ b ∈ fileRows runTest listed translated file,
      a.test = b.test → a.verdict = b.verdict := by
  intro a ha b hb htest
  obtain ⟨⟨name, j⟩, hj, rfl⟩ := List.mem_map.mp ha
  obtain ⟨⟨name', k⟩, hk, rfl⟩ := List.mem_map.mp hb
  obtain rfl : name = name' := htest
  show (settle runTest listed translated file name j).1 = (settle runTest listed translated file name k).1
  by_cases hjk : j = k
  · rw [hjk]
  · rcases h with huntranslated | htell
    · simp [settle, huntranslated]
    · have hj' := List.mem_zipIdx_iff_getElem?.mp hj
      have hk' := List.mem_zipIdx_iff_getElem?.mp hk
      have hnone : findTest listed file.module name = none := by
        refine findTest_none.mpr ?_
        rcases Nat.lt_or_gt_of_ne hjk with hlt | hlt
        · exact htell.distinct j k name hlt hj' hk'
        · exact htell.distinct k j name hlt hk' hj'
      simp only [settle, hnone]

/-- **What a file is scored as**: where it has been translated, names and tests are paired one to one, and
the verdicts kept for it are those of its rows. -/
structure ScoredRight (runTest : TestFile → Nat → String → String × String) (listed : List String)
    (translated : String → Bool) (files : List TestFile) (file : TestFile) (names : List String) : Prop where
  paired : translated file.module = true → OneToOne listed file.module names
  agrees : (files.map TestFile.name).Nodup →
    ∃ record, (score runTest listed translated files).1.get? file.name = some record ∧
      ∀ row ∈ fileRows runTest listed translated file, record.tests.get? row.test = some row.verdict

/-- Files of different names keep their records. -/
theorem score_record {files : List TestFile} (h : (files.map TestFile.name).Nodup) {file : TestFile}
    (hfile : file ∈ files) : (score runTest listed translated files).1.get? file.name =
      some (fileRecord runTest listed translated file) := by
  refine Dict.get?_foldl_insert TestFile.name (fileRecord runTest listed translated) ?_ _ file hfile
  intro a ha b hb hname
  rw [List.inj_on_of_nodup_map h ha hb hname]

end Result

/-- A file with one test. -/
def csvTests : TestFile := ⟨"csv", "tc_csv", ["rust/csv.rs"], some ["parse"]⟩

end Assure
