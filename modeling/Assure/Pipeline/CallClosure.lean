import Assure.Agent.RunSafety
import Assure.Functions.Schedule
import Assure.Pipeline.GroupStep

/-!
# The final file is closed under calls

A function translated by the agent had all its callees in the file at that time, functions are never
lost, and so it has them in the final file (`runSccTopoTranslateLoop_closed`). A failed callee is
remembered by being absent from the file: whatever depends on it, directly or through others, is
dropped when it comes up.

The result is for every map, every order of the queue and every agent. It is about the file that is
written at the end; that the functions in it compile together is not claimed.
-/

namespace Assure

open Assure.Library

variable {ω : Type*} {env : PipelineEnv ω} {order : SetOrder Nat} {q : SccTopoQueue}
  {funcMap : FuncMap}

/-- No end of a group loses a function. -/
theorem GroupEnd.keeps {p p' : Pipeline ω} {sccGroup : List String} {unitEnd : UnitEnd}
    (h : GroupEnd env p sccGroup p' unitEnd) :
    env.agentFunctionNames p.translation.agentFile ⊆
      env.agentFunctionNames p'.translation.agentFile := by
  cases h with
  | translated _ _ kept _ _ => exact kept
  | byHand _ _ _ file _ => rw [file]; exact List.Subset.refl _
  | dropped _ file _ => rw [file]; exact List.Subset.refl _

/-- Every end of a group logs it. -/
theorem GroupEnd.outcome {p p' : Pipeline ω} {sccGroup : List String} {unitEnd : UnitEnd}
    (h : GroupEnd env p sccGroup p' unitEnd) :
    ∃ o : Outcome, o.sccGroup = sccGroup ∧ p'.outcomes = p.outcomes ++ [o] ∧
      (o.manuallyFixed = true → env.canPromptForInteractiveFix = true) ∧
      (o.successFlag = true → o.manuallyFixed = false → ∀ f ∈ sccGroup, ∀ c,
        p.funcMap.Callee f c → c ∉ sccGroup →
          c ∈ env.agentFunctionNames p.translation.agentFile) ∧
      (o.successFlag = false → p'.translation.agentFile = p.translation.agentFile) := by
  cases h with
  | translated logged ready _ _ _ =>
    exact ⟨_, rfl, logged, fun hhand => (nomatch hhand), fun _ _ => ready,
      fun hflag => nomatch hflag⟩
  | byHand _ prompted logged file _ =>
    exact ⟨_, rfl, logged, fun _ => prompted, fun _ hhand => (nomatch hhand), fun _ => file⟩
  | dropped logged file _ =>
    exact ⟨_, rfl, logged, fun hhand => (nomatch hhand), fun hflag => (nomatch hflag),
      fun _ => file⟩

/-- **The invariant of the loop**: the graph is the one it started with, and what the agent
translated has its callees in the file. -/
structure Pipeline.Closed (env : PipelineEnv ω) (q : SccTopoQueue) (funcMap : FuncMap)
    (p : Pipeline ω) : Prop where
  graph : funcMap.SameGraph p.funcMap
  groups : ∀ o ∈ p.outcomes, o.sccGroup ∈ q.sccs
  prompted : ∀ o ∈ p.outcomes, o.manuallyFixed = true → env.canPromptForInteractiveFix = true
  callees : ∀ o ∈ p.outcomes, o.successFlag = true → o.manuallyFixed = false →
    ∀ f ∈ o.sccGroup, ∀ c, funcMap.Callee f c → c ∉ o.sccGroup →
      c ∈ env.agentFunctionNames p.translation.agentFile

/-- **A group keeps the invariant.** -/
theorem Pipeline.Closed.group {contextedStructs : String} {p p' : Pipeline ω}
    {sccGroup : List String} (hp : p.Closed env q funcMap) (hmem : sccGroup ∈ q.sccs)
    (hne : sccGroup ≠ []) (h : env.translateGroup contextedStructs p sccGroup = some p') :
    p'.Closed env q funcMap := by
  obtain ⟨hgraph, unitEnd, hend⟩ := translateGroup_end hne h
  obtain ⟨o, hgroup, hlog, hprompt, hready, -⟩ := hend.outcome
  have hcallee : ∀ f c, funcMap.Callee f c → p.funcMap.Callee f c := by
    intro f c hc
    exact ⟨(hp.graph.2 f).symm ▸ hc.1, hp.graph.1.symm ▸ hc.2⟩
  refine ⟨hp.graph.trans hgraph, ?_, ?_, ?_⟩
  · intro o' ho'
    rw [hlog] at ho'
    rcases List.mem_append.mp ho' with ho' | ho'
    · exact hp.groups o' ho'
    · rw [List.mem_singleton.mp ho', hgroup]
      exact hmem
  · intro o' ho'
    rw [hlog] at ho'
    rcases List.mem_append.mp ho' with ho' | ho'
    · exact hp.prompted o' ho'
    · rw [List.mem_singleton.mp ho']
      exact hprompt
  · intro o' ho' hflag hhand f hf c hc hout
    rw [hlog] at ho'
    apply hend.keeps
    rcases List.mem_append.mp ho' with ho' | ho'
    · exact hp.callees o' ho' hflag hhand f hf c hc hout
    · obtain rfl := List.mem_singleton.mp ho'
      rw [hgroup] at hf hout
      exact hready hflag hhand f hf c (hcallee f c hc) hout

/-- The loop starts with nothing logged. -/
theorem Pipeline.Closed.start (translation : Translation ω) :
    Pipeline.Closed env q funcMap ⟨translation, funcMap, "", none, fun _ => none, []⟩ :=
  ⟨.refl funcMap, by simp, by simp, by simp⟩

/-- **Every state the loop reaches satisfies the invariant.** -/
theorem Pipeline.Closed.reached (hq : q.Sound funcMap) {translation : Translation ω}
    {contextedStructs : String} {st : SccLoop (Pipeline ω)}
    (h : SccLoop.Reached order q (env.translateGroup contextedStructs)
      ⟨translation, funcMap, "", none, fun _ => none, []⟩ st) : st.world.Closed env q funcMap := by
  induction h with
  | refl => exact .start translation
  | tail _ hpass ih =>
    obtain ⟨sccId, rest, sccGroup, world, -, hget, hunit, rfl⟩ := sccPass_cases hpass
    rw [SccLoop.world_foldl_decrement]
    have hmem := List.mem_of_getElem? hget
    exact ih.group hmem (hq.groups.nonempty sccGroup hmem) hunit

/-- **The final file has the callees of everything reported as translated**, and a group with a
callee missing when it comes up is never reported as translated and leaves the file alone. -/
theorem runSccTopoTranslateLoop_closed (env : PipelineEnv ω)
    (hmanual : env.canPromptForInteractiveFix = false) (order : SetOrder Nat) (funcMap : FuncMap)
    (typeCodes : List (Option String)) (translation : Translation ω) :
    (∀ p, env.runSccTopoTranslateLoop order funcMap typeCodes translation = some p →
      ∀ o ∈ p.outcomes, (∀ sccs, findStronglyConnectedComponents funcMap = some sccs →
        o.sccGroup ∈ sccs) ∧
        (o.successFlag = true → ∀ f ∈ o.sccGroup, ∀ c, funcMap.Callee f c → c ∉ o.sccGroup →
          c ∈ env.agentFunctionNames p.translation.agentFile)) ∧
    (∀ q st st', createSccTopoQueue funcMap typeCodes = some q →
      SccLoop.Reached order q (env.translateGroup q.contextedStructs)
        ⟨translation, funcMap, "", none, fun _ => none, []⟩ st →
      sccPass order q (env.translateGroup q.contextedStructs) st = some st' →
      ∃ sccId rest o, st.sccQueue = sccId :: rest ∧ q.sccs[sccId]? = some o.sccGroup ∧
        st'.world.outcomes = st.world.outcomes ++ [o] ∧
        ((∃ f ∈ o.sccGroup, ∃ c, funcMap.Callee f c ∧ c ∉ o.sccGroup ∧
            c ∉ env.agentFunctionNames st.world.translation.agentFile) →
          o.successFlag = false ∧
            st'.world.translation.agentFile = st.world.translation.agentFile)) := by
  obtain ⟨q, hcreate, hq, -⟩ := createSccTopoQueue_sound funcMap typeCodes
  constructor
  · intro p hrun o ho
    unfold PipelineEnv.runSccTopoTranslateLoop at hrun
    rw [hcreate, Option.bind_some] at hrun
    obtain ⟨st, hst, rfl⟩ := Option.map_eq_some_iff.mp hrun
    have hclosed := Pipeline.Closed.reached hq (runSccLoop_reached hst)
    constructor
    · intro sccs hsccs
      unfold createSccTopoQueue at hcreate
      rw [hsccs, Option.map_some] at hcreate
      cases hcreate
      exact hclosed.groups o ho
    · intro hflag
      refine hclosed.callees o ho hflag ?_
      by_contra hhand
      have hprompt := hclosed.prompted o ho (by simpa using hhand)
      rw [hmanual] at hprompt
      cases hprompt
  · intro q' st st' hcreate' hreach hpass
    obtain rfl := Option.some.inj (hcreate.symm.trans hcreate')
    have hclosed := Pipeline.Closed.reached hq hreach
    obtain ⟨sccId, rest, sccGroup, world, hqueue, hget, hunit, rfl⟩ := sccPass_cases hpass
    have hmem := List.mem_of_getElem? hget
    obtain ⟨-, unitEnd, hend⟩ := translateGroup_end (hq.groups.nonempty sccGroup hmem) hunit
    obtain ⟨o, rfl, hlog, hprompt, hready, hfailed⟩ := hend.outcome
    refine ⟨sccId, rest, o, hqueue, hget, ?_, ?_⟩
    · rw [SccLoop.world_foldl_decrement]
      exact hlog
    · intro hmissing
      obtain ⟨f, hf, c, hc, hout, hnot⟩ := hmissing
      have hhand : o.manuallyFixed = false := by
        by_contra hhand
        have hyes := hprompt (by simpa using hhand)
        rw [hmanual] at hyes
        cases hyes
      have hflag : o.successFlag = false := by
        by_contra hflag
        refine hnot (hready (by simpa using hflag) hhand f hf c ?_ hout)
        exact ⟨(hclosed.graph.2 f).symm ▸ hc.1, hclosed.graph.1.symm ▸ hc.2⟩
      rw [SccLoop.world_foldl_decrement]
      exact ⟨hflag, hfailed hflag⟩

/-! ## A small codebase -/

/-- The scripted workspace with requests that are empty, no signatures, and a user who has the given
actions ready. -/
def scriptedPipeline (compilationRetries : Int) (prompt : Bool) (actions : List UserAction) :
    PipelineEnv (List Reply) where
  toAgentEnv := scripted compilationRetries
  requestText _ _ := ("", "")
  findTargetRustFunction _ _ := none
  fetchRustFunctionSignature _ _ := none
  findTargetRustFunctionNode source funcName :=
    ((lineFunctions source).find? fun f => f.name = funcName).map fun f => (0, f.text)
  canPromptForInteractiveFix := prompt
  userActions world _ _ := (world, actions)

/-- `f` calls `g`, which is translated; `h` calls `bad`, which is not. -/
def fourFunctions : FuncMap :=
  .ofEdges [("f", ["g"]), ("g", []), ("h", ["bad"]), ("bad", [])] (by decide)

/-- An agent that translates `bad` wrong and the others right. -/
def fourReplies : Translation (List Reply) where
  world := [.edited "fn g() ok", .edited "fn bad() bad", .edited "fn g() ok\nfn f() ok"]
  agentFile := ""
  agentTypeNodes := []
  rustCode _ := ""

/-- The theorem at a run over four functions in which one group is refused. -/
theorem runSccTopoTranslateLoop_closed_fourFunctions :
    ∃ p, (scriptedPipeline 0 false []).runSccTopoTranslateLoop (.ascending Nat) fourFunctions []
        fourReplies = some p ∧
      p.outcomes.map (fun o => (o.sccGroup, o.successFlag)) =
        [(["g"], true), (["bad"], false), (["f"], true), (["h"], false)] ∧
      ∀ o ∈ p.outcomes, o.successFlag = true → ∀ f ∈ o.sccGroup, ∀ c, fourFunctions.Callee f c →
        c ∉ o.sccGroup → c ∈ (scripted 0).agentFunctionNames p.translation.agentFile := by
  have hrun : ((scriptedPipeline 0 false []).runSccTopoTranslateLoop (.ascending Nat) fourFunctions
      [] fourReplies).map (fun p => p.outcomes.map fun o => (o.sccGroup, o.successFlag)) =
        some [(["g"], true), (["bad"], false), (["f"], true), (["h"], false)] := by
    decide +kernel
  obtain ⟨p, hp, houtcomes⟩ := Option.map_eq_some_iff.mp hrun
  refine ⟨p, hp, houtcomes, ?_⟩
  intro o ho
  exact ((runSccTopoTranslateLoop_closed (scriptedPipeline 0 false []) rfl (.ascending Nat)
    fourFunctions [] fourReplies).1 p hp o ho).2

end Assure
