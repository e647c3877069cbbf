import Assure.Pipeline.TranslateLoop

/-!
# What one group does to the loop

`translateGroup` ends in one of three ways (`GroupEnd`): the agent's edit is accepted, the user fixes
the group by hand, or the group is dropped. `translateGroup_end` is the one place where its branches
are taken apart; what a run keeps is derived from the three cases.

A group is only translated when every callee outside it is in the file (`mem_failedCallees`), and no
case changes which functions there are and what they depend on (`FuncMap.SameGraph`).
-/

namespace Assure

open Assure.Library

variable {ω : Type*}

/-! ## The graph of the functions -/

/-- Two maps with the same functions and dependencies. -/
def FuncMap.SameGraph (m m' : FuncMap) : Prop :=
  m'.keys = m.keys ∧ ∀ f, m'.dependFunctions f = m.dependFunctions f

namespace FuncMap

/-- A map has the same calls as itself. -/
theorem SameGraph.refl (m : FuncMap) : m.SameGraph m := ⟨rfl, fun _ => rfl⟩

/-- Having the same calls can be followed over two steps. -/
theorem SameGraph.trans {m m' m'' : FuncMap} (h : m.SameGraph m') (h' : m'.SameGraph m'') :
    m.SameGraph m'' :=
  ⟨h'.1.trans h.1, fun f => (h'.2 f).trans (h.2 f)⟩

/-- Changing the other fields of a record keeps the graph. -/
theorem sameGraph_modify (m : FuncMap) (k : String)
    (update : FunctionAndDependencies → FunctionAndDependencies)
    (h : ∀ obj, (update obj).dependFunctions = obj.dependFunctions) :
    m.SameGraph (m.modify k update) := by
  refine ⟨Dict.keys_modify m k update, fun f => ?_⟩
  unfold dependFunctions
  rw [Dict.get?_modify]
  split
  · rw [Option.map_map]
    congr 2
    funext obj
    exact h obj
  · rfl

/-- What keeps the calls for one function keeps them for many. -/
theorem sameGraph_foldl {step : FuncMap → String → FuncMap}
    (h : ∀ (m : FuncMap) (k : String), m.SameGraph (step m k)) :
    ∀ (ks : List String) (m : FuncMap), m.SameGraph (ks.foldl step m)
  | [], m => .refl m
  | k :: ks, m => (h m k).trans (sameGraph_foldl h ks (step m k))

/-- Preparing a group keeps the calls. -/
theorem sameGraph_prepare (m : FuncMap) (sccGroup : List String) (previously : String) :
    m.SameGraph (m.prepare sccGroup previously) := by
  apply sameGraph_foldl
  intro m k
  apply sameGraph_modify
  intro obj
  rfl

end FuncMap

/-- So does recording the signatures. -/
theorem sameGraph_recordSignatures (env : PipelineEnv ω) (translatedResult : String)
    (m : FuncMap) (sccGroup : List String) :
    m.SameGraph (env.recordSignatures translatedResult m sccGroup) := by
  unfold PipelineEnv.recordSignatures
  split
  · exact FuncMap.sameGraph_modify m _ _ fun _ => rfl
  · apply FuncMap.sameGraph_foldl
    intro m k
    apply FuncMap.sameGraph_modify
    intro obj
    rfl

/-! ## The call for a group -/

/-- The call for a group asks for the functions of the group. -/
theorem groupCall_targets (env : PipelineEnv ω) (m : FuncMap) {sccGroup : List String}
    (hne : sccGroup ≠ []) : (env.groupCall m sccGroup).targets = sccGroup := by
  unfold PipelineEnv.groupCall
  split
  · rfl
  · unfold TranslateCall.targets
    dsimp only
    rw [if_neg hne]

/-- **The callees that hold a group back**: those outside it, among the functions to translate, that
are not in the file. -/
theorem mem_failedCallees (env : PipelineEnv ω) (m : FuncMap) {sccGroup : List String}
    (hne : sccGroup ≠ []) (agentFile c : String) :
    c ∈ env.failedCallees m.keys (env.groupCall m sccGroup) agentFile ↔
      (∃ f ∈ sccGroup, c ∈ m.dependFunctions f) ∧ c ∉ sccGroup ∧ c ∈ m.keys ∧
        c ∉ env.agentFunctionNames agentFile := by
  have hdeps : c ∉ sccGroup → c ∈ m.keys →
      (c ∈ (env.groupCall m sccGroup).dependencyFunctionNames ↔
        ∃ f ∈ sccGroup, c ∈ m.dependFunctions f) := by
    intro hout hkey
    unfold PipelineEnv.groupCall
    split
    · simp
    · unfold FuncMap.externalDeps
      simp [hout, hkey]
  unfold AgentEnv.failedCallees
  rw [List.mem_filter, List.mem_eraseDups, groupCall_targets env m hne, decide_eq_true_eq]
  constructor
  · intro h
    obtain ⟨hdep, hout, hkey, hfile⟩ := h
    exact ⟨(hdeps hout hkey).mp hdep, hout, hkey, hfile⟩
  · intro h
    obtain ⟨hdep, hout, hkey, hfile⟩ := h
    exact ⟨(hdeps hout hkey).mpr hdep, hout, hkey, hfile⟩

/-! ## The three ends of a group -/

/-- What a group comes to: the file an accepted session leaves, the block the user fixed by hand, or
nothing. -/
inductive UnitEnd
  | translated (edited : String)
  | byHand (fixedBlock : String)
  | dropped

/-- **How a group ends**, and what the loop makes of it. -/
inductive GroupEnd (env : PipelineEnv ω) (p : Pipeline ω) (sccGroup : List String)
    (p' : Pipeline ω) : UnitEnd → Prop
  /-- The agent's edit was accepted: nothing outside was missing, and the block is the group's text in
  the new file. -/
  | translated
    (logged : p'.outcomes = p.outcomes ++ [⟨sccGroup, true, false⟩])
    (ready : ∀ f ∈ sccGroup, ∀ c, p.funcMap.Callee f c → c ∉ sccGroup →
      c ∈ env.agentFunctionNames p.translation.agentFile)
    (kept : env.agentFunctionNames p.translation.agentFile ⊆
      env.agentFunctionNames p'.translation.agentFile)
    (defined : sccGroup ⊆ env.agentFunctionNames p'.translation.agentFile)
    (block : p'.splitBlocks = Function.update p.splitBlocks (blockName sccGroup)
      (some (env.cleanCode (env.agentCutFunctions p'.translation.agentFile sccGroup)))) :
    GroupEnd env p sccGroup p' (.translated p'.translation.agentFile)
  /-- The user's fix was accepted: the block is what the user wrote, and the file is as before. -/
  | byHand (fixedBlock : String)
    (prompted : env.canPromptForInteractiveFix = true)
    (logged : p'.outcomes = p.outcomes ++ [⟨sccGroup, true, true⟩])
    (file : p'.translation.agentFile = p.translation.agentFile)
    (block : p'.splitBlocks = Function.update p.splitBlocks (blockName sccGroup)
      (some (env.cleanCode fixedBlock))) :
    GroupEnd env p sccGroup p' (.byHand fixedBlock)
  /-- The group was dropped. -/
  | dropped
    (logged : p'.outcomes = p.outcomes ++ [⟨sccGroup, false, false⟩])
    (file : p'.translation.agentFile = p.translation.agentFile)
    (block : p'.splitBlocks = p.splitBlocks) :
    GroupEnd env p sccGroup p' .dropped

/-- What asking the user does to the variables of the loop. -/
theorem manualFix_spec {env : PipelineEnv ω} {contextedStructs translatedResult : String}
    {p p' : Pipeline ω} {sccGroup : List String} {fixed : Option String}
    (h : env.manualFix contextedStructs p sccGroup translatedResult = (p', fixed)) :
    p'.translation.agentFile = p.translation.agentFile ∧ p'.outcomes = p.outcomes ∧
      p'.splitBlocks = p.splitBlocks ∧
      (fixed ≠ none → env.canPromptForInteractiveFix = true) := by
  unfold PipelineEnv.manualFix at h
  split at h
  · rename_i hprompt
    cases h
    exact ⟨rfl, rfl, rfl, fun _ => hprompt⟩
  · cases h
    exact ⟨rfl, rfl, rfl, fun hne => absurd rfl hne⟩

/-- **A group ends in one of the three ways**, and leaves the graph of the functions as it was. -/
theorem translateGroup_end {env : PipelineEnv ω} {contextedStructs : String} {p p' : Pipeline ω}
    {sccGroup : List String} (hne : sccGroup ≠ [])
    (h : env.translateGroup contextedStructs p sccGroup = some p') :
    p.funcMap.SameGraph p'.funcMap ∧ ∃ unitEnd, GroupEnd env p sccGroup p' unitEnd := by
  unfold PipelineEnv.translateGroup at h
  split at h
  swap
  · cases h
  have hprep := p.funcMap.sameGraph_prepare sccGroup p.previouslyTranslatedFunctions
  generalize p.funcMap.prepare sccGroup p.previouslyTranslatedFunctions = funcMap at h hprep
  obtain ⟨⟨translation, successFlag, translatedResult⟩, htranslate, h⟩ := Option.map_eq_some_iff.mp h
  obtain ⟨hok, hfail⟩ := agentTranslate_spec htranslate
  dsimp only at h
  split at h
  · rename_i hflag
    obtain ⟨hcallees, htargets, hkept, hresult⟩ := hok hflag
    rw [groupCall_targets env funcMap hne] at htargets hresult
    cases h
    refine ⟨hprep.trans (sameGraph_recordSignatures env translatedResult funcMap sccGroup), ?_⟩
    refine ⟨_, .translated rfl (fun f hf c hc hout => ?_) hkept htargets (by rw [hresult]; rfl)⟩
    by_contra hmissing
    have hmem := (mem_failedCallees env funcMap hne p.translation.agentFile c).mpr
      ⟨⟨f, hf, (hprep.2 f).symm ▸ hc.1⟩, hout, hprep.1.symm ▸ hc.2, hmissing⟩
    rw [hcallees] at hmem
    exact List.not_mem_nil hmem
  · rename_i hflag
    have hfile := hfail (by simpa using hflag)
    generalize hfix : env.manualFix contextedStructs
      { p with translation := translation, funcMap := funcMap } sccGroup translatedResult = fix at h
    obtain ⟨p₁, fixed⟩ := fix
    obtain ⟨hfile₁, hlog₁, hblocks₁, hprompt⟩ := manualFix_spec hfix
    have hgraph := hprep.trans
      (sameGraph_recordSignatures env (fixed.getD translatedResult) funcMap sccGroup)
    dsimp only at h hfile₁ hlog₁ hblocks₁
    cases fixed with
    | none =>
      cases h
      refine ⟨hgraph, _, .dropped ?_ (hfile₁.trans hfile) hblocks₁⟩
      show p₁.outcomes ++ [⟨sccGroup, false, false⟩] = _
      rw [hlog₁]
    | some fixedBlock =>
      cases h
      refine ⟨hgraph, _,
        .byHand fixedBlock (hprompt (by simp)) ?_ (hfile₁.trans hfile) ?_⟩
      · show p₁.outcomes ++ [⟨sccGroup, true, true⟩] = _
        rw [hlog₁]
      · show Function.update p₁.splitBlocks (blockName sccGroup)
          (some (env.cleanCode fixedBlock)) = _
        rw [hblocks₁]

end Assure
