import Assure.Agent.Units

/-!
# What an agent-mode run keeps

A run is any sequence of units. The agent may leave any text in `rust/out.rs` in any round, and the
compiler and the parser may answer anything, but the check compares every accepted file with the one
before the unit, so functions are only ever added: `runUnit_spec` says it of a unit and
`runUnits_safe` of a run.

One thing the check does not see is the text of a typedef the pipeline appends itself; that a
complete typedef hides no function is assumed (`AppendsSafely`).
-/

namespace Assure

open Assure.Library

variable {ω : Type*}

/-- **A unit of work.** -/
inductive TranslationUnit
  | typeBatch (batchName request : String) (batchNodes : List TypeNodeKey)
  | resolvedTypedef (node : TypeNodeKey) (rustCode : String)
  | finishTypes
  | functions (call : TranslateCall)

/-- The functions a unit is to add. -/
def TranslationUnit.targets : TranslationUnit → List String
  | .functions call => call.targets
  | _ => []

/-- Carry out a unit: the state after it, and whether it was accepted. A typedef the pipeline
resolved is stored and appended; it and the end of the types cannot fail. -/
def AgentEnv.runUnit (env : AgentEnv ω) (agentFuncMap : List String) (s : Translation ω) :
    TranslationUnit → Option (Translation ω × Bool)
  | .typeBatch batchName request batchNodes =>
    env.agentTranslateTypeBatch batchName request batchNodes s
  | .resolvedTypedef node rustCode =>
    some (env.agentAppendType node
      { s with rustCode := Function.update s.rustCode node rustCode }, true)
  | .finishTypes => some (agentFinishTypes s, true)
  | .functions call =>
    (env.agentTranslate agentFuncMap call s).map fun (s', successFlag, _) => (s', successFlag)

/-- What a run says of a unit: whether it was accepted, and the file before and after it. -/
structure UnitReport where
  unit : TranslationUnit
  accepted : Bool
  before : String
  after : String

/-- **A run**: one unit after the other. -/
def AgentEnv.runUnits (env : AgentEnv ω) (agentFuncMap : List String) :
    List TranslationUnit → Translation ω → Option (Translation ω × List UnitReport)
  | [], s => some (s, [])
  | unit :: units, s =>
    (env.runUnit agentFuncMap s unit).bind fun (s', accepted) =>
      (env.runUnits agentFuncMap units s').map fun (last, reports) =>
        (last, ⟨unit, accepted, s.agentFile, s'.agentFile⟩ :: reports)

/-- Every unit starts from the file the one before it left. -/
def Chained : String → List UnitReport → String → Prop
  | first, [], last => first = last
  | first, r :: reports, last => r.before = first ∧ Chained r.after reports last

/-- **A safe run** from one file to another: no function is lost, an accepted unit's functions are
there when it is accepted and at the end, and a failed unit leaves the file alone. -/
structure RunSafe (env : AgentEnv ω) (first : String) (reports : List UnitReport) (last : String) :
    Prop where
  chained : Chained first reports last
  kept : ∀ r ∈ reports, env.agentFunctionNames r.before ⊆ env.agentFunctionNames r.after
  defined : ∀ r ∈ reports, r.accepted = true → ∀ t ∈ r.unit.targets,
    t ∈ env.agentFunctionNames r.after ∧ t ∈ env.agentFunctionNames last
  failed : ∀ r ∈ reports, r.accepted = false → r.after = r.before

/-- Appending the typedefs the pipeline resolved hides no function of the file. -/
def AppendsSafely (env : AgentEnv ω) (units : List TranslationUnit) : Prop :=
  ∀ node rustCode, .resolvedTypedef node rustCode ∈ units → ∀ file,
    env.agentFunctionNames file ⊆ env.agentFunctionNames (file ++ "\n" ++ rustCode ++ "\n")

variable {env : AgentEnv ω} {agentFuncMap : List String}

/-- **What one unit keeps.** -/
theorem runUnit_spec {unit : TranslationUnit} {s s' : Translation ω} {accepted : Bool}
    (happend : AppendsSafely env [unit])
    (h : env.runUnit agentFuncMap s unit = some (s', accepted)) :
    env.agentFunctionNames s.agentFile ⊆ env.agentFunctionNames s'.agentFile ∧
      (accepted = true → unit.targets ⊆ env.agentFunctionNames s'.agentFile) ∧
      (accepted = false → s'.agentFile = s.agentFile) := by
  cases unit with
  | typeBatch batchName request batchNodes =>
    obtain ⟨hok, hfail⟩ := agentTranslateTypeBatch_spec h
    cases accepted with
    | true => exact ⟨hok rfl, fun _ => List.nil_subset _, fun hflag => nomatch hflag⟩
    | false => exact ⟨(hfail rfl) ▸ List.Subset.refl _, fun hflag => (nomatch hflag), hfail⟩
  | resolvedTypedef node rustCode =>
    cases h
    refine ⟨?_, fun _ => List.nil_subset _, fun hflag => nomatch hflag⟩
    unfold AgentEnv.agentAppendType
    dsimp only
    split
    · rw [Function.update_self]
      exact happend node rustCode List.mem_cons_self s.agentFile
    · exact List.Subset.refl _
  | finishTypes =>
    cases h
    exact ⟨List.Subset.refl _, fun _ => List.nil_subset _, fun _ => rfl⟩
  | functions call =>
    obtain ⟨⟨s₁, successFlag, result⟩, htranslate, h⟩ := Option.map_eq_some_iff.mp h
    cases h
    obtain ⟨hok, hfail⟩ := agentTranslate_spec htranslate
    cases accepted with
    | true => exact ⟨(hok rfl).2.2.1, fun _ => (hok rfl).2.1, fun hflag => nomatch hflag⟩
    | false => exact ⟨(hfail rfl) ▸ List.Subset.refl _, fun hflag => (nomatch hflag), hfail⟩

/-- No function is lost over a whole chain. -/
theorem Chained.kept : ∀ {first last : String} {reports : List UnitReport},
    Chained first reports last →
      (∀ r ∈ reports, env.agentFunctionNames r.before ⊆ env.agentFunctionNames r.after) →
        env.agentFunctionNames first ⊆ env.agentFunctionNames last
  | _, _, [], h, _ => h ▸ List.Subset.refl _
  | _, _, r :: reports, h, hkept => by
    obtain ⟨rfl, h⟩ := h
    have hrest := Chained.kept h fun r' hr' => hkept r' (List.mem_cons_of_mem r hr')
    exact fun f hf => hrest (hkept r List.mem_cons_self hf)

/-- **Every run is safe**, whatever the agent, the compiler and the parser do: no unit loses a function of the file,
an accepted unit has its functions in it from then on, and a failed unit leaves the file alone. All that is asked is
that the typedefs which the pipeline appends hide no function. By induction on the units. -/
theorem runUnits_safe {units : List TranslationUnit} {s last : Translation ω}
    {reports : List UnitReport} (happend : AppendsSafely env units)
    (h : env.runUnits agentFuncMap units s = some (last, reports)) :
    RunSafe env s.agentFile reports last.agentFile := by
  induction units generalizing s reports with
  | nil =>
    cases h
    exact ⟨rfl, by simp, by simp, by simp⟩
  | cons unit units ih =>
    obtain ⟨⟨s', accepted⟩, hunit, h⟩ := Option.bind_eq_some_iff.mp h
    obtain ⟨⟨_, rest⟩, hrest, h⟩ := Option.map_eq_some_iff.mp h
    cases h
    have hsafe := ih (fun node rustCode hmem => happend node rustCode (List.mem_cons_of_mem _ hmem))
      hrest
    obtain ⟨hkept, htargets, hfailed⟩ := runUnit_spec
      (fun node rustCode hmem => happend node rustCode (by simp_all)) hunit
    refine ⟨⟨rfl, hsafe.chained⟩, ?_, ?_, ?_⟩
    · intro r hr
      rcases List.mem_cons.mp hr with rfl | hr
      · exact hkept
      · exact hsafe.kept r hr
    · intro r hr hflag t ht
      rcases List.mem_cons.mp hr with rfl | hr
      · exact ⟨htargets hflag ht, hsafe.chained.kept hsafe.kept (htargets hflag ht)⟩
      · exact hsafe.defined r hr hflag t ht
    · intro r hr hflag
      rcases List.mem_cons.mp hr with rfl | hr
      · exact hfailed hflag
      · exact hsafe.failed r hr hflag

/-! ## A small workspace -/

/-- The lines of a text. -/
def linesOf : List Char → List (List Char)
  | [] => [[]]
  | c :: cs =>
    if c = '\n' then [] :: linesOf cs
    else match linesOf cs with
      | [] => [[c]]
      | line :: lines => (c :: line) :: lines

/-- Even the empty text has one line, so the reading by lines below always has a line to append to.
-/
theorem linesOf_ne_nil : ∀ xs : List Char, linesOf xs ≠ []
  | [] => by simp [linesOf]
  | c :: xs => by
    unfold linesOf
    split
    · simp
    · split <;> simp

/-- The lines of two texts joined by a line break are the lines of both, in order. -/
theorem linesOf_append (ys : List Char) : ∀ xs : List Char,
    linesOf (xs ++ '\n' :: ys) = linesOf xs ++ linesOf ys
  | [] => by simp [linesOf]
  | c :: xs => by
    have ih := linesOf_append ys xs
    by_cases hc : c = '\n'
    · simp [linesOf, hc, ih]
    · cases hxs : linesOf xs with
      | nil => exact absurd hxs (linesOf_ne_nil xs)
      | cons line lines => simp [linesOf, hc, ih, hxs]

/-- The function on a line that starts with `fn`. -/
def lineFunction (line : List Char) : Option RustFunction :=
  if "fn ".toList <+: line then
    some ⟨String.ofList ((line.drop 3).takeWhile (· ≠ '(')), String.ofList line,
      String.ofList (line.takeWhile (· ≠ '\x7b'))⟩
  else none

/-- The functions of a text that has them one to a line. -/
def lineFunctions (code : String) : List RustFunction := (linesOf code.toList).filterMap lineFunction

/-- **A workspace with a scripted agent**: it has the next reply of the script ready, and then gives
up. The compiler refuses what says `bad`. -/
def scripted (compilationRetries : Int) : AgentEnv (List Reply) where
  charClass := .ascii
  compilationRetries := compilationRetries
  agentUnitTimeout := 2400
  agentInvoke
    | [], invocation => ([], ⟨invocation.out, none, "", none⟩)
    | reply :: script, _ => (script, reply)
  monotonic script := (script, 0)
  compile code := if contains code "bad" then (false, "error: bad") else (true, "")
  agentFunctions := lineFunctions
  cleanCode := id
  extractTargetCode := id
  extractRustcImportSuggestions _ := []
  errorLines := id

/-- A reply that leaves a file behind. -/
def Reply.edited (out : String) : Reply := ⟨some out, some "ses", "done", none⟩

/-- A request for one function. -/
def TranslateCall.single (funcName : String) (dependencyFunctionNames : List String) :
    TranslateCall := ⟨funcName, "", dependencyFunctionNames, "", []⟩

/-- The reading by lines meets the assumption of the run theorem: a block set behind the file adds
its functions and changes none of those before it. -/
theorem lineFunctions_append (file text : String) :
    lineFunctions (file ++ "\n" ++ text ++ "\n") =
      lineFunctions file ++ lineFunctions (text ++ "\n") := by
  have hchars : (file ++ "\n" ++ text ++ "\n").toList =
      file.toList ++ '\n' :: (text ++ "\n").toList := by simp
  rw [lineFunctions, hchars, linesOf_append, List.filterMap_append]
  rfl

/-- A typedef, a function accepted in its second round, and one that is never accepted. -/
theorem runUnits_safe_scripted : ∃ reports last,
    reports.map UnitReport.accepted = [true, true, false] ∧
      RunSafe (scripted 1) "" reports last := by
  have hrun : (((scripted 1).runUnits ["f", "g"]
      [.resolvedTypedef ⟨.typedef, "size_t"⟩ "pub type size_t = usize;",
        .functions (.single "f" []), .functions (.single "g" ["f"])]
      ⟨[.edited "fn f() bad", .edited "fn f() ok", .edited "fn g() ok", .edited "fn f() bad\nfn g()"],
        "", [], fun _ => ""⟩).map fun r => r.2.map UnitReport.accepted) = some [true, true, false] := by
    decide +kernel
  obtain ⟨⟨last, reports⟩, h, haccepted⟩ := Option.map_eq_some_iff.mp hrun
  refine ⟨reports, last.agentFile, haccepted, runUnits_safe ?_ h⟩
  intro node rustCode hmem file f hf
  show f ∈ (lineFunctions _).map RustFunction.name
  rw [lineFunctions_append, List.map_append]
  exact List.mem_append_left _ hf

end Assure
