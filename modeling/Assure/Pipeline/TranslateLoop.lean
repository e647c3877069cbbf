import Assure.Agent.Units
import Assure.Functions.TopoQueue

/-!
# The translation loop

`_runSccTopoTranslateLoop` takes the function groups from the queue and translates each: a single
function through `compileWithFeedback`, a mutually recursive group through
`compileSccWithFeedback`, both ending in `agentTranslate`. A failure may be handed to the user, who
edits the dumped file until it compiles (`offerManualFix`). A success is logged as added to the merged
file; its text goes to `split_blocks` and the merged file is written.

The translation of a group is the `unit` of `runSccLoop`, so the order of the groups is the one
proved for every unit. The texts of the prompts and what rests on the Rust parser are parameters
(`PipelineEnv`).
-/

namespace Assure

open Assure.Library

/-- What the user does at the prompt of a manual fix: skip, or press Enter with the file as edited,
`none` where it cannot be read. -/
inductive UserAction
  | skip
  | enter (editedSource : Option String)

/-- **What the loop runs on** besides the agent: the prompt and source of a request, the search for a
function in Rust text (`findTargetRustFunctionNode` gives its place and text), its signature, and the
user. -/
structure PipelineEnv (ω : Type*) extends AgentEnv ω where
  requestText : FuncMap → List String → String × String
  findTargetRustFunction : String → String → Option String
  fetchRustFunctionSignature : String → String → Option (String × String)
  findTargetRustFunctionNode : String → String → Option (Nat × String)
  canPromptForInteractiveFix : Bool
  userActions : ω → List String → String → ω × List UserAction

/-- What is logged of a group: whether it was added to the merged file, and whether by hand. -/
structure Outcome where
  sccGroup : List String
  successFlag : Bool
  manuallyFixed : Bool
deriving DecidableEq

/-- **The variables of the loop** beside the queue: the translation, the records of the functions, the
text translated so far, and the files written. `outcomes` is the log. -/
structure Pipeline (ω : Type*) where
  translation : Translation ω
  funcMap : FuncMap
  previouslyTranslatedFunctions : String
  mergedFile : Option String
  splitBlocks : String → Option String
  outcomes : List Outcome

variable {ω : Type*}

/-! ## The texts of a request -/

/-- The signatures of the translated dependencies, one to a line. -/
def FuncMap.signatures (funcMap : FuncMap) (deps : List String) : String :=
  String.join (deps.filterMap fun dep =>
    (funcMap.get? dep).map fun obj => obj.targetLangSignature ++ "\n")

/-- `externalDeps` of `compileSccWithFeedback`: what the members depend on outside the group. -/
def FuncMap.externalDeps (funcMap : FuncMap) (sccGroup : List String) : List String :=
  ((sccGroup.flatMap funcMap.dependFunctions).filter fun dep =>
    dep ∉ sccGroup ∧ dep ∈ funcMap.keys).eraseDups

/-- `sccLabel` -/
def sccLabel (sccGroup : List String) : String :=
  let label := "scc_" ++ "__".intercalate sccGroup
  if 80 < label.length then String.ofList (label.toList.take 77) ++ "..." else label

/-- The name of a group's block: the function, or the members joined by `@`. -/
def blockName (sccGroup : List String) : String := "@".intercalate sccGroup

/-- Before a group is translated, its members' records get what was translated so far. -/
def FuncMap.prepare (funcMap : FuncMap) (sccGroup : List String) (previously : String) : FuncMap :=
  sccGroup.foldl (fun m funcName =>
    let deps := (m.dependFunctions funcName).filter fun dep => sccGroup.length = 1 ∨ dep ∉ sccGroup
    m.modify funcName fun obj => { obj with
      previouslyTranslatedFunctions := previously
      previouslyTranslatedFunctionSignatures := m.signatures deps }) funcMap

/-- The call of `agentTranslate` for a group. -/
def PipelineEnv.groupCall (env : PipelineEnv ω) (funcMap : FuncMap) :
    List String → TranslateCall
  | [funcSym] =>
    let (prompt, funcSrc) := env.requestText funcMap [funcSym]
    ⟨funcSym, prompt, funcMap.dependFunctions funcSym, funcSrc, []⟩
  | sccGroup =>
    let (prompt, funcSrc) := env.requestText funcMap sccGroup
    ⟨sccLabel sccGroup, prompt, funcMap.externalDeps sccGroup, funcSrc, sccGroup⟩

/-! ## The manual fix -/

/-- The text of every wanted function in the edited file, in the order they stand there; `none` when
one is not found. -/
def PipelineEnv.cutBlock (env : PipelineEnv ω) (sccGroup : List String) (source : String) :
    Option String :=
  (sccGroup.mapM (env.findTargetRustFunctionNode source)).map fun nodes =>
    "\n".intercalate ((sortedBy Prod.fst nodes).map Prod.snd)

/-- **`_offerManualFunctionFix`, `_offerManualSccFix`**: the accepted block, once the edited file
compiles and has the functions. The prompt ends when the user skips or the input does. -/
def PipelineEnv.offerManualFix (env : PipelineEnv ω) (sccGroup : List String) :
    List UserAction → Option String
  | [] => none
  | .skip :: _ => none
  | .enter none :: actions => env.offerManualFix sccGroup actions
  | .enter (some editedSource) :: actions =>
    if (env.compile editedSource).1 then
      match env.cutBlock sccGroup editedSource with
      | some fixedBlock => some fixedBlock
      | none => env.offerManualFix sccGroup actions
    else env.offerManualFix sccGroup actions

/-! ## The loop -/

/-- The signature recorded for a function, where the search finds one under the name it settled on. -/
def PipelineEnv.targetSignature (env : PipelineEnv ω) (translatedResult funcSym : String) :
    Option String :=
  (env.findTargetRustFunction translatedResult funcSym).bind fun realName =>
    if realName = "" then none
    else (env.fetchRustFunctionSignature translatedResult realName).bind fun signature =>
      if signature.1 = realName then some signature.2 else none

/-- Record the signatures of a group: for a single function only where one was found, for the members
of a group the empty text where none was. -/
def PipelineEnv.recordSignatures (env : PipelineEnv ω) (translatedResult : String)
    (funcMap : FuncMap) : List String → FuncMap
  | [funcSym] => funcMap.modify funcSym fun obj => { obj with
      targetLangSignature := (env.targetSignature translatedResult funcSym).getD
        obj.targetLangSignature }
  | sccGroup => sccGroup.foldl (fun m funcName => m.modify funcName fun obj => { obj with
      targetLangSignature := (env.targetSignature translatedResult funcName).getD "" }) funcMap

/-- `_mergedFileText`: the file the agent edited, not the text the pipeline put together. -/
def Pipeline.mergedFileText (p : Pipeline ω) (_assembled : String) : String := p.translation.agentFile

/-- A success: log it, write the block and the merged file. -/
def PipelineEnv.addBlock (env : PipelineEnv ω) (p : Pipeline ω) (sccGroup : List String)
    (translatedResult : String) (manuallyFixed : Bool) : Pipeline ω :=
  { p with
    outcomes := p.outcomes ++ [⟨sccGroup, true, manuallyFixed⟩]
    splitBlocks := Function.update p.splitBlocks (blockName sccGroup)
      (some (env.cleanCode translatedResult))
    mergedFile := some
      (p.mergedFileText (p.previouslyTranslatedFunctions ++ "\n" ++ translatedResult))
    previouslyTranslatedFunctions := p.previouslyTranslatedFunctions ++ "\n" ++ translatedResult }

/-- A failure: log it. -/
def Pipeline.dropGroup (p : Pipeline ω) (sccGroup : List String) : Pipeline ω :=
  { p with outcomes := p.outcomes ++ [⟨sccGroup, false, false⟩] }

/-- The failed group's file is dumped and, where the user can be asked, the user's fix is taken: the
state after it and the accepted block. -/
def PipelineEnv.manualFix (env : PipelineEnv ω) (contextedStructs : String) (p : Pipeline ω)
    (sccGroup : List String) (translatedResult : String) : Pipeline ω × Option String :=
  if env.canPromptForInteractiveFix then
    let dump := env.cleanCode
      (contextedStructs ++ "\n" ++ p.previouslyTranslatedFunctions ++ "\n" ++ translatedResult)
    let (world, actions) := env.userActions p.translation.world sccGroup dump
    ({ p with translation := { p.translation with world := world } },
      env.offerManualFix sccGroup actions)
  else (p, none)

/-- **One group of the loop**; `none` if a member is no key of the map or the agent raises. -/
def PipelineEnv.translateGroup (env : PipelineEnv ω) (contextedStructs : String) (p : Pipeline ω)
    (sccGroup : List String) : Option (Pipeline ω) :=
  if sccGroup.all (· ∈ p.funcMap.keys) then
    let funcMap := p.funcMap.prepare sccGroup p.previouslyTranslatedFunctions
    (env.agentTranslate funcMap.keys (env.groupCall funcMap sccGroup) p.translation).map
      fun (translation, successFlag, translatedResult) =>
        let p := { p with translation := translation, funcMap := funcMap }
        if successFlag then
          env.addBlock { p with funcMap := env.recordSignatures translatedResult funcMap sccGroup }
            sccGroup translatedResult false
        else
          let (p, fixed) := env.manualFix contextedStructs p sccGroup translatedResult
          let result := fixed.getD translatedResult
          let p := { p with funcMap := env.recordSignatures result funcMap sccGroup }
          match fixed with
          | some fixedBlock => env.addBlock p sccGroup fixedBlock true
          | none => p.dropGroup sccGroup
  else none

/-- The loop over the queue, from a translation that holds the types. -/
def PipelineEnv.translateLoop (env : PipelineEnv ω) (order : SetOrder Nat) (q : SccTopoQueue)
    (funcMap : FuncMap) (translation : Translation ω) : Option (SccLoop (Pipeline ω)) :=
  runSccLoop order q (env.translateGroup q.contextedStructs)
    ⟨translation, funcMap, "", none, fun _ => none, []⟩

/-- **`_runSccTopoTranslateLoop`**: after the loop the merged file is written once more, cleaned. -/
def PipelineEnv.runSccTopoTranslateLoop (env : PipelineEnv ω) (order : SetOrder Nat)
    (funcMap : FuncMap) (typeCodes : List (Option String)) (translation : Translation ω) :
    Option (Pipeline ω) :=
  (createSccTopoQueue funcMap typeCodes).bind fun q =>
    (env.translateLoop order q funcMap translation).map fun st =>
      { st.world with mergedFile := some (env.cleanCode (st.world.mergedFileText
          (q.contextedStructs ++ "\n" ++ st.world.previouslyTranslatedFunctions))) }

end Assure
