import Assure.Agent.Session
import Assure.Types.TypeGraph

/-!
# The units of an agent-mode run

A unit is a batch of types, a typedef the pipeline resolved itself, or the functions of one
translation request. Each changes `agentFile`, the translation so far, through a session of the
agent. `agentCheckFile` is the pipeline's verdict on an edited file: it compiles, it has every
target, and it lost no function it had before the unit.

There is one lemma for each unit (`agentTranslate_spec`, `agentTranslateTypeBatch_spec`): accepted,
the new file passed the check against the file before the unit; failed, the file is the one before.
-/

namespace Assure

open Assure.Library Assure.Library.Pattern

/-! ## The check -/

/-- `_STUB` -/
def stubPattern (charClass : CharClass) : Pattern Unit := do
  boundary charClass
  orElse (lit "todo") (lit "unimplemented")
  lit "!"
  let _ ← many charClass.space
  lit "("

/-- The item keywords of `_agentDefines`. -/
def itemKeyword (charClass : CharClass) : Pattern Unit :=
  orElse (lit "type") <| orElse (lit "struct") <| orElse (lit "union") <| orElse (lit "enum") <|
    orElse (lit "const") <| orElse staticMut (lit "fn")
where
  /-- `static(?:\s+mut)?` -/
  staticMut := do
    lit "static"
    orElse (do let _ ← many1 charClass.space; lit "mut") (pure ())

/-- `_agentDefines` -/
def agentDefines (charClass : CharClass) (code name : String) : Bool :=
  found (do
    boundary charClass
    itemKeyword charClass
    let _ ← many1 charClass.space
    lit name
    boundary charClass) code

variable {ω : Type*}

namespace AgentEnv

/-- `_agentFunctionNames` -/
def agentFunctionNames (env : AgentEnv ω) (code : String) : List String :=
  (env.agentFunctions code).map RustFunction.name

/-- `_agentCutFunctions` -/
def agentCutFunctions (env : AgentEnv ω) (code : String) (targets : List String) : String :=
  "\n\n".intercalate (((env.agentFunctions code).filter fun f => f.name ∈ targets).map
    RustFunction.text)

/-- **`_agentCheckFile`** -/
def agentCheckFile (env : AgentEnv ω) (code : String) (targets : List String)
    (before : Finset String) : Bool × String :=
  let names := env.agentFunctionNames code
  let missing := targets.filter fun t => t ∉ names
  if missing ≠ [] then
    (false, "rust/out.rs has no function named " ++ ", ".intercalate missing ++
      ". Translate it under its C name (written r#name if the name is a Rust keyword).")
  else
    let gone := (before \ names.toFinset).sort (· ≤ ·)
    if gone ≠ [] then
      (false, "rust/out.rs no longer has " ++ ", ".intercalate gone ++
        ", translated before this task. Put it back; remove no function.")
    else
      let stubs := (env.agentFunctions code).filter fun f => found (stubPattern env.charClass) f.text
      if stubs ≠ [] then
        (false, "todo!() or unimplemented!() in " ++ ", ".intercalate (stubs.map RustFunction.name) ++
          ". Translate every function in full.")
      else env.compile (env.cleanCode code)

/-- `applyRustcImportAutoFix`: prepend the `use` lines the compiler suggests, and say which. -/
def applyRustcImportAutoFix (env : AgentEnv ω) (code err : String) : String × List String :=
  if code = "" ∨ err = "" then (code, [])
  else
    let novel := (env.extractRustcImportSuggestions err).filter fun use => ¬ contains code use
    if novel = [] then (code, []) else ("\n".intercalate novel ++ "\n" ++ code, novel)

/-- `check` of `agentTranslate`: a rejection by the compiler is checked again with the imports it
asks for. -/
def functionCheck (env : AgentEnv ω) (targets : List String) (before : Finset String)
    (code : String) : Verdict :=
  let (successFlag, err) := env.agentCheckFile code targets before
  if !successFlag && "error".toList.isPrefixOf err.toList then
    let (patched, appliedUses) := env.applyRustcImportAutoFix code err
    if appliedUses ≠ [] then
      let (successFlag, err) := env.agentCheckFile patched targets before
      ⟨successFlag, err, patched⟩
    else ⟨successFlag, err, code⟩
  else ⟨successFlag, err, code⟩

/-- `check` of `agentTranslateTypeBatch`: a file left as it was passes only if it already has the
batch. -/
def typeBatchCheck (env : AgentEnv ω) (agentFile : String) (batchNodes : List TypeNodeKey)
    (before : Finset String) (code : String) : Verdict :=
  let undefined := batchNodes.filter fun node => ¬ agentDefines env.charClass code node.name
  if code = agentFile ∧ undefined ≠ [] then
    ⟨false, "rust/out.rs is unchanged and does not define " ++
      ", ".intercalate (undefined.map TypeNodeKey.name) ++ ".", code⟩
  else
    let (successFlag, err) := env.agentCheckFile code [] before
    ⟨successFlag, err, code⟩

end AgentEnv

/-! ## The units -/

/-- **The state the units share**: the translation so far, the type nodes of the run, and the Rust
code stored with each node. -/
structure Translation (ω : Type*) where
  world : ω
  agentFile : String
  agentTypeNodes : List TypeNodeKey
  rustCode : TypeNodeKey → String

/-- The arguments of `agentTranslate` it reads; no target functions stand for `funcName` alone. -/
structure TranslateCall where
  funcName : String
  prompt : String
  dependencyFunctionNames : List String
  funcSrc : String
  targetFunctions : List String

/-- `targets` -/
def TranslateCall.targets (call : TranslateCall) : List String :=
  if call.targetFunctions = [] then [call.funcName] else call.targetFunctions

namespace AgentEnv

/-- `failedCallees`: the callees among the functions to translate that are not in the file. -/
def failedCallees (env : AgentEnv ω) (agentFuncMap : List String) (call : TranslateCall)
    (agentFile : String) : List String :=
  call.dependencyFunctionNames.eraseDups.filter fun c =>
    c ∉ call.targets ∧ c ∈ agentFuncMap ∧ c ∉ env.agentFunctionNames agentFile

/-- `_agentCalleeHint` -/
def agentCalleeHint (env : AgentEnv ω) (agentFile : String) (callees targets : List String) :
    String :=
  let callees := callees.eraseDups.filter fun c => c ∉ targets
  if callees = [] then ""
  else
    -- of two functions with one name the later gives the signature
    let signature c := ((env.agentFunctions agentFile).reverse.find? fun f => f.name = c).map
      RustFunction.signature
    let missing := callees.filter fun c => (signature c).isNone
    "\nFunctions it calls (a hint; rust/out.rs has them in full):\n" ++
      String.join ((callees.filterMap signature).map fun sig => sig ++ "\n") ++
      (if missing = [] then "" else "Not in rust/out.rs: " ++ ", ".intercalate missing ++ "\n")

/-- **`agentTranslate`**: the state after it, and `(successFlag, result)`. -/
def agentTranslate (env : AgentEnv ω) (agentFuncMap : List String) (call : TranslateCall)
    (s : Translation ω) : Option (Translation ω × Bool × String) :=
  let targets := call.targets
  if env.failedCallees agentFuncMap call s.agentFile ≠ [] then some (s, false, "")
  else
    let several := 1 < targets.length
    let task := "Translate the C function" ++ (if several then "s " else " ") ++
      ", ".intercalate targets ++ " to Rust and add " ++ (if several then "them" else "it") ++
      " to rust/out.rs.\n\n" ++ strip env.charClass call.funcSrc ++ "\n" ++ call.prompt ++
      env.agentCalleeHint s.agentFile call.dependencyFunctionNames targets
    let before := (env.agentFunctionNames s.agentFile).toFinset
    (env.agentRun s.world
      { name := call.funcName, kind := "agent_function", task := task, contextRust := ""
        outInitial := some s.agentFile }
      (env.functionCheck targets before)).map fun ended =>
        let cut := env.agentCutFunctions ended.result targets
        if ended.successFlag then
          ({ s with world := ended.world, agentFile := ended.result }, true, cut)
        else ({ s with world := ended.world }, false, if cut = "" then ended.result else cut)

/-- **`agentTranslateTypeBatch`**: the state after it, and whether the batch was accepted. -/
def agentTranslateTypeBatch (env : AgentEnv ω) (batchName request : String)
    (batchNodes : List TypeNodeKey) (s : Translation ω) : Option (Translation ω × Bool) :=
  let before := (env.agentFunctionNames s.agentFile).toFinset
  (env.agentRun s.world
    { name := batchName, kind := "agent_type_batch", task := request, contextRust := ""
      outInitial := some s.agentFile }
    (env.typeBatchCheck s.agentFile batchNodes before)).map fun ended =>
      ({ s with
          world := ended.world
          agentFile := if ended.successFlag then ended.result else s.agentFile
          agentTypeNodes := s.agentTypeNodes ++ batchNodes }, ended.successFlag)

/-- **`agentAppendType`** -/
def agentAppendType (env : AgentEnv ω) (node : TypeNodeKey) (s : Translation ω) : Translation ω :=
  { s with
    agentFile :=
      if s.rustCode node ≠ "" ∧ ¬ agentDefines env.charClass s.agentFile node.name then
        s.agentFile ++ "\n" ++ s.rustCode node ++ "\n"
      else s.agentFile
    agentTypeNodes := s.agentTypeNodes ++ [node] }

end AgentEnv

/-- `agentFinishTypes` -/
def agentFinishTypes (s : Translation ω) : Translation ω :=
  { s with rustCode := fun node => if node ∈ s.agentTypeNodes then s.agentFile else s.rustCode node }

/-! ## What a unit does to the file -/

variable {env : AgentEnv ω}

/-- **A file that passes the check** has the targets and everything it had before. -/
theorem agentCheckFile_passed {code : String} {targets : List String} {before : Finset String}
    (h : (env.agentCheckFile code targets before).1 = true) :
    targets ⊆ env.agentFunctionNames code ∧ ∀ f ∈ before, f ∈ env.agentFunctionNames code := by
  unfold AgentEnv.agentCheckFile at h
  dsimp only at h
  split at h
  · cases h
  · rename_i hmissing
    split at h
    · cases h
    · rename_i hgone
      constructor
      · intro t ht
        by_contra hnot
        apply hmissing
        apply List.ne_nil_of_mem (a := t)
        simp [ht, hnot]
      · intro f hf
        by_contra hnot
        apply hgone
        apply List.ne_nil_of_mem (a := f)
        simp [hf, hnot]

/-- A verdict in favour of functions is on the file it hands back. -/
theorem functionCheck_passed {code : String} {targets : List String} {before : Finset String}
    (h : (env.functionCheck targets before code).successFlag = true) :
    (env.agentCheckFile (env.functionCheck targets before code).result targets before).1 = true := by
  unfold AgentEnv.functionCheck at h ⊢
  dsimp only at h ⊢
  split at h
  · rename_i hretry
    rw [if_pos hretry]
    split at h
    · rename_i happlied
      rw [if_pos happlied]
      exact h
    · rename_i happlied
      rw [if_neg happlied]
      exact h
  · rename_i hretry
    rw [if_neg hretry]
    exact h

/-- So is one in favour of a type batch. -/
theorem typeBatchCheck_passed {agentFile code : String} {batchNodes : List TypeNodeKey}
    {before : Finset String}
    (h : (env.typeBatchCheck agentFile batchNodes before code).successFlag = true) :
    (env.typeBatchCheck agentFile batchNodes before code).result = code ∧
      (env.agentCheckFile code [] before).1 = true := by
  unfold AgentEnv.typeBatchCheck at h ⊢
  dsimp only at h ⊢
  split at h
  · cases h
  · rename_i hchanged
    rw [if_neg hchanged]
    exact ⟨rfl, h⟩

/-- **What `agentTranslate` does.** Success needs every callee in the file; then the new file has
the targets, lost no function, and the result is the targets' text in it. Failure leaves the file
alone. -/
theorem agentTranslate_spec {agentFuncMap : List String} {call : TranslateCall}
    {s s' : Translation ω} {successFlag : Bool} {result : String}
    (h : env.agentTranslate agentFuncMap call s = some (s', successFlag, result)) :
    (successFlag = true → env.failedCallees agentFuncMap call s.agentFile = [] ∧
      call.targets ⊆ env.agentFunctionNames s'.agentFile ∧
      env.agentFunctionNames s.agentFile ⊆ env.agentFunctionNames s'.agentFile ∧
      result = env.agentCutFunctions s'.agentFile call.targets) ∧
    (successFlag = false → s'.agentFile = s.agentFile) := by
  unfold AgentEnv.agentTranslate at h
  dsimp only at h
  split at h
  · cases h
    exact ⟨fun hflag => (nomatch hflag), fun _ => rfl⟩
  · rename_i hcallees
    obtain ⟨ended, hrun, h⟩ := Option.map_eq_some_iff.mp h
    split at h
    · rename_i hflag
      cases h
      obtain ⟨code, hcheck, hresult⟩ := agentRun_accepted hrun hflag
      have hpassed := functionCheck_passed hcheck
      rw [hresult] at hpassed
      obtain ⟨htargets, hkept⟩ := agentCheckFile_passed hpassed
      refine ⟨fun _ => ⟨not_not.mp hcallees, htargets, fun f hf => ?_, rfl⟩, fun hflag => (nomatch hflag)⟩
      exact hkept f (List.mem_toFinset.mpr hf)
    · cases h
      exact ⟨fun hflag => (nomatch hflag), fun _ => rfl⟩

/-- **What `agentTranslateTypeBatch` does**: it loses no function, and a rejected batch leaves the
file alone. -/
theorem agentTranslateTypeBatch_spec {batchName request : String} {batchNodes : List TypeNodeKey}
    {s s' : Translation ω} {successFlag : Bool}
    (h : env.agentTranslateTypeBatch batchName request batchNodes s = some (s', successFlag)) :
    (successFlag = true → env.agentFunctionNames s.agentFile ⊆ env.agentFunctionNames s'.agentFile) ∧
      (successFlag = false → s'.agentFile = s.agentFile) := by
  unfold AgentEnv.agentTranslateTypeBatch at h
  obtain ⟨ended, hrun, h⟩ := Option.map_eq_some_iff.mp h
  cases h
  constructor
  · intro hflag
    obtain ⟨code, hcheck, hresult⟩ := agentRun_accepted hrun hflag
    obtain ⟨hcode, hpassed⟩ := typeBatchCheck_passed hcheck
    obtain rfl : code = ended.result := hcode.symm.trans hresult
    intro f hf
    show f ∈ env.agentFunctionNames (if ended.successFlag = true then ended.result else s.agentFile)
    rw [if_pos hflag]
    exact (agentCheckFile_passed hpassed).2 f (List.mem_toFinset.mpr hf)
  · intro hflag
    simp [hflag]

end Assure
