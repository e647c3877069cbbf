import Assure.Pipeline.CallClosure

/-!
# The outputs of the loop

The accepted code of a function is kept in two places: in the file the agent edits, which is written
as `merged_funcs`, and in the function's block in `split_blocks`. `OutputsAgree` says that the two
are in step. They do not stay so by themselves: a hand-fixed block never reaches the agent's file, and
a later session may rewrite a function whose block is already written.

`UnitEnd.Faithful` is what it takes for one group to keep the outputs together, and
`GroupEnd.outputs_iff` shows that nothing less does. Over a run, the outputs agree in every state
reached exactly when every group is faithful.

Over states the result is an equivalence; for the file that is written at the end it is the
direction from faithful groups to outputs that agree. The compiler, the parse and the cleaning of a
text are any functions.
-/

namespace Assure

open Assure.Library

variable {ω : Type*} {env : PipelineEnv ω} {order : SetOrder Nat} {q : SccTopoQueue}
  {funcMap : FuncMap}

/-- What is written as `merged_funcs` when the loop ends with these variables. -/
def PipelineEnv.mergedFuncs (env : PipelineEnv ω) (contextedStructs : String) (p : Pipeline ω) :
    String :=
  env.cleanCode (p.mergedFileText (contextedStructs ++ "\n" ++ p.previouslyTranslatedFunctions))

/-- **The outputs agree on a merged file**: the functions logged as added are defined in it, and each
group's block is the text it has there. -/
structure OutputsAgree (env : PipelineEnv ω) (p : Pipeline ω) (merged : String) : Prop where
  defined : ∀ o ∈ p.outcomes, o.successFlag = true → o.sccGroup ⊆ env.agentFunctionNames merged
  stored : ∀ o ∈ p.outcomes, o.successFlag = true →
    p.splitBlocks (blockName o.sccGroup) = some (env.agentCutFunctions merged o.sccGroup)

/-- A block, once cleaned, is what a merged file has for the group. -/
def PipelineEnv.Ships (env : PipelineEnv ω) (block : String) (sccGroup : List String)
    (merged : String) : Prop :=
  sccGroup ⊆ env.agentFunctionNames merged ∧
    env.cleanCode block = env.agentCutFunctions merged sccGroup

instance (env : PipelineEnv ω) (block : String) (sccGroup : List String) (merged : String) :
    Decidable (env.Ships block sccGroup merged) :=
  inferInstanceAs (Decidable (_ ∧ _))

/-- The functions added so far are in both files with the same text. -/
def PipelineEnv.KeepsTexts (env : PipelineEnv ω) (p : Pipeline ω) (merged merged' : String) : Prop :=
  ∀ o ∈ p.outcomes, o.successFlag = true → o.sccGroup ⊆ env.agentFunctionNames merged' ∧
    env.agentCutFunctions merged' o.sccGroup = env.agentCutFunctions merged o.sccGroup

/-- **A faithful end of a group.** An accepted session leaves the functions added before as they are,
and cleaning does not set the group's text apart from the file's; a block fixed by hand is in the
file already. -/
def UnitEnd.Faithful (env : PipelineEnv ω) (p : Pipeline ω) (sccGroup : List String) :
    UnitEnd → Prop
  | .translated edited =>
    env.Ships (env.agentCutFunctions edited sccGroup) sccGroup (env.cleanCode edited) ∧
      env.KeepsTexts p (env.cleanCode p.translation.agentFile) (env.cleanCode edited)
  | .byHand fixedBlock => env.Ships fixedBlock sccGroup (env.cleanCode p.translation.agentFile)
  | .dropped => True

/-! ## One group -/

/-- A group added under a block name of its own. -/
theorem OutputsAgree.add_iff {p p' : Pipeline ω} {sccGroup : List String} {manuallyFixed : Bool}
    {block merged merged' : String} (h : OutputsAgree env p merged)
    (hlog : p'.outcomes = p.outcomes ++ [⟨sccGroup, true, manuallyFixed⟩])
    (hblock : p'.splitBlocks = Function.update p.splitBlocks (blockName sccGroup)
      (some (env.cleanCode block)))
    (hfresh : ∀ o ∈ p.outcomes, blockName o.sccGroup ≠ blockName sccGroup) :
    OutputsAgree env p' merged' ↔
      env.Ships block sccGroup merged' ∧ env.KeepsTexts p merged merged' := by
  have hnew : (⟨sccGroup, true, manuallyFixed⟩ : Outcome) ∈ p'.outcomes := by simp [hlog]
  have hold : ∀ o ∈ p.outcomes, o ∈ p'.outcomes := by
    intro o ho
    rw [hlog]
    exact List.mem_append_left _ ho
  have hkept : ∀ o ∈ p.outcomes,
      p'.splitBlocks (blockName o.sccGroup) = p.splitBlocks (blockName o.sccGroup) := by
    intro o ho
    rw [hblock, Function.update_of_ne (hfresh o ho)]
  constructor
  · intro h'
    refine ⟨⟨h'.defined _ hnew rfl, ?_⟩, ?_⟩
    · have hstored := h'.stored _ hnew rfl
      rw [hblock, Function.update_self] at hstored
      exact Option.some.inj hstored
    · intro o ho hflag
      refine ⟨h'.defined o (hold o ho) hflag, ?_⟩
      have hstored := h'.stored o (hold o ho) hflag
      rw [hkept o ho, h.stored o ho hflag] at hstored
      exact (Option.some.inj hstored).symm
  · intro hboth
    obtain ⟨hships, hkeeps⟩ := hboth
    refine ⟨?_, ?_⟩
    · intro o ho hflag
      rw [hlog] at ho
      rcases List.mem_append.mp ho with ho | ho
      · exact (hkeeps o ho hflag).1
      · obtain rfl := List.mem_singleton.mp ho
        exact hships.1
    · intro o ho hflag
      rw [hlog] at ho
      rcases List.mem_append.mp ho with ho | ho
      · rw [hkept o ho, h.stored o ho hflag, (hkeeps o ho hflag).2]
      · obtain rfl := List.mem_singleton.mp ho
        rw [hblock, Function.update_self, hships.2]

/-- **A group keeps the outputs together exactly when its end is faithful.** -/
theorem GroupEnd.outputs_iff {contextedStructs : String} {p p' : Pipeline ω}
    {sccGroup : List String} {unitEnd : UnitEnd} (hend : GroupEnd env p sccGroup p' unitEnd)
    (hfresh : ∀ o ∈ p.outcomes, blockName o.sccGroup ≠ blockName sccGroup)
    (h : OutputsAgree env p (env.mergedFuncs contextedStructs p)) :
    OutputsAgree env p' (env.mergedFuncs contextedStructs p') ↔
      unitEnd.Faithful env p sccGroup := by
  have hsame : env.KeepsTexts p (env.mergedFuncs contextedStructs p)
      (env.mergedFuncs contextedStructs p) := fun o ho hflag => ⟨h.defined o ho hflag, rfl⟩
  cases hend with
  | translated logged _ _ _ block => exact h.add_iff logged block hfresh
  | byHand fixedBlock _ logged file block =>
    have hmerged : env.mergedFuncs contextedStructs p' = env.mergedFuncs contextedStructs p :=
      congrArg env.cleanCode file
    rw [hmerged, h.add_iff logged block hfresh]
    exact and_iff_left hsame
  | dropped logged file block =>
    have hmerged : env.mergedFuncs contextedStructs p' = env.mergedFuncs contextedStructs p :=
      congrArg env.cleanCode file
    refine ⟨fun _ => trivial, fun _ => ⟨?_, ?_⟩⟩
    · intro o ho hflag
      rw [logged] at ho
      rcases List.mem_append.mp ho with ho | ho
      · rw [hmerged]
        exact h.defined o ho hflag
      · obtain rfl := List.mem_singleton.mp ho
        cases hflag
    · intro o ho hflag
      rw [logged] at ho
      rcases List.mem_append.mp ho with ho | ho
      · rw [hmerged, block]
        exact h.stored o ho hflag
      · obtain rfl := List.mem_singleton.mp ho
        cases hflag

/-- With nobody to ask, only an accepted session has to be faithful. -/
theorem GroupEnd.faithful_of_unprompted {p p' : Pipeline ω} {sccGroup : List String}
    {unitEnd : UnitEnd} (hend : GroupEnd env p sccGroup p' unitEnd)
    (hmanual : env.canPromptForInteractiveFix = false)
    (h : (UnitEnd.translated p'.translation.agentFile).Faithful env p sccGroup) :
    unitEnd.Faithful env p sccGroup := by
  cases hend with
  | translated => exact h
  | byHand _ prompted =>
    rw [hmanual] at prompted
    cases prompted
  | dropped => trivial

/-! ## Block names -/

/-- Function names hold no `@`: they are C identifiers. -/
def FuncMap.PlainNames (funcMap : FuncMap) : Prop := ∀ f ∈ funcMap.keys, '@' ∉ f.toList

/-- Two groups of plain names with one block name are the same. -/
theorem blockName_inj {C D : List String} (hC : C ≠ []) (hD : D ≠ [])
    (hplainC : ∀ f ∈ C, '@' ∉ f.toList) (hplainD : ∀ f ∈ D, '@' ∉ f.toList)
    (h : blockName C = blockName D) : C = D := by
  have hsplit : ∀ l : List String, l ≠ [] → (∀ f ∈ l, '@' ∉ f.toList) →
      (blockName l).toList.splitOn '@' = l.map String.toList := by
    intro l hl hplain
    rw [blockName, String.toList_intercalate]
    apply List.splitOn_intercalate
    · intro chars hchars
      obtain ⟨f, hf, rfl⟩ := List.mem_map.mp hchars
      exact hplain f hf
    · simpa using hl
  have hlists : C.map String.toList = D.map String.toList := by
    rw [← hsplit C hC hplainC, ← hsplit D hD hplainD, h]
  exact List.map_injective_iff.mpr (fun _ _ => String.toList_inj.mp) hlists

/-! ## The run -/

/-- A logged group was dequeued. -/
theorem logged_dequeued {translation : Translation ω} {contextedStructs : String}
    (hq : q.Sound funcMap) {st : SccLoop (Pipeline ω)}
    (h : SccLoop.Reached order q (env.translateGroup contextedStructs)
      ⟨translation, funcMap, "", none, fun _ => none, []⟩ st) :
    ∀ o ∈ st.world.outcomes, ∃ i ∈ st.dequeued, q.sccs[i]? = some o.sccGroup := by
  induction h with
  | refl =>
    intro o ho
    cases ho
  | tail _ hpass ih =>
    obtain ⟨sccId, rest, sccGroup, world, -, hget, hunit, rfl⟩ := sccPass_cases hpass
    have hne := hq.groups.nonempty sccGroup (List.mem_of_getElem? hget)
    obtain ⟨-, unitEnd, hend⟩ := translateGroup_end hne hunit
    obtain ⟨new, hgroup, hlog, -⟩ := hend.outcome
    intro o ho
    rw [SccLoop.world_foldl_decrement] at ho
    rw [SccLoop.dequeued_foldl_decrement]
    rw [hlog] at ho
    rcases List.mem_append.mp ho with ho | ho
    · obtain ⟨i, hi, hgeti⟩ := ih o ho
      exact ⟨i, List.mem_append_left _ hi, hgeti⟩
    · obtain rfl := List.mem_singleton.mp ho
      exact ⟨sccId, by simp, hgroup.symm ▸ hget⟩

/-- **Every group of a run ends faithfully.** -/
def FaithfulRun (env : PipelineEnv ω) (order : SetOrder Nat) (q : SccTopoQueue)
    (funcMap : FuncMap) (translation : Translation ω) : Prop :=
  ∀ st st' sccGroup unitEnd,
    SccLoop.Reached order q (env.translateGroup q.contextedStructs)
      ⟨translation, funcMap, "", none, fun _ => none, []⟩ st →
    sccPass order q (env.translateGroup q.contextedStructs) st = some st' →
    GroupEnd env st.world sccGroup st'.world unitEnd →
    unitEnd.Faithful env st.world sccGroup

section Run

variable {translation : Translation ω} {st st' : SccLoop (Pipeline ω)}

/-- A group that comes up has a block name of its own. -/
theorem fresh_blockName (hq : q.Sound funcMap) (hplain : funcMap.PlainNames)
    {contextedStructs : String} {sccId : Nat} {rest : List Nat} {sccGroup : List String}
    (hreach : SccLoop.Reached order q (env.translateGroup contextedStructs)
      ⟨translation, funcMap, "", none, fun _ => none, []⟩ st)
    (hqueue : st.sccQueue = sccId :: rest) (hget : q.sccs[sccId]? = some sccGroup) :
    ∀ o ∈ st.world.outcomes, blockName o.sccGroup ≠ blockName sccGroup := by
  intro o ho hname
  obtain ⟨i, hi, hgeti⟩ := logged_dequeued hq hreach o ho
  have hne : ∀ C ∈ q.sccs, C ≠ [] := hq.groups.nonempty
  have hchars : ∀ C ∈ q.sccs, ∀ f ∈ C, '@' ∉ f.toList := by
    intro C hC f hf
    exact hplain f ((hq.groups.cover f).mp (List.mem_flatten.mpr ⟨C, hC, hf⟩))
  have hmem := List.mem_of_getElem? hget
  have hmemi := List.mem_of_getElem? hgeti
  have hsame := blockName_inj (hne _ hmemi) (hne _ hmem) (hchars _ hmemi) (hchars _ hmem) hname
  obtain ⟨f, hf⟩ := List.exists_mem_of_ne_nil sccGroup (hne _ hmem)
  obtain rfl := hq.groups.index_unique hgeti hget (hsame ▸ hf) hf
  -- a group is dequeued once
  have hnodup := (SccLoop.Inv.reached hq hreach).kahn.nodup
  have hready : st.toKahn.ready = i :: rest := hqueue
  rw [hready] at hnodup
  exact (List.nodup_append.mp hnodup).2.2 i hi i List.mem_cons_self rfl

/-- **A pass keeps the outputs together exactly when its group ends faithfully.** -/
theorem OutputsAgree.pass_iff (hq : q.Sound funcMap) (hplain : funcMap.PlainNames)
    {sccGroup : List String} {unitEnd : UnitEnd}
    (hreach : SccLoop.Reached order q (env.translateGroup q.contextedStructs)
      ⟨translation, funcMap, "", none, fun _ => none, []⟩ st)
    (hpass : sccPass order q (env.translateGroup q.contextedStructs) st = some st')
    (hend : GroupEnd env st.world sccGroup st'.world unitEnd)
    (h : OutputsAgree env st.world (env.mergedFuncs q.contextedStructs st.world)) :
    OutputsAgree env st'.world (env.mergedFuncs q.contextedStructs st'.world) ↔
      unitEnd.Faithful env st.world sccGroup := by
  apply hend.outputs_iff _ h
  obtain ⟨sccId, rest, sccGroup', world, hqueue, hget, hunit, hst'⟩ := sccPass_cases hpass
  have hworld : st'.world = world := by
    rw [hst', SccLoop.world_foldl_decrement]
  have hne := hq.groups.nonempty sccGroup' (List.mem_of_getElem? hget)
  obtain ⟨-, unitEnd', hend'⟩ := translateGroup_end hne hunit
  obtain ⟨o, hgroup, hlog, -⟩ := hend.outcome
  obtain ⟨o', hgroup', hlog', -⟩ := hend'.outcome
  have hlogs : st.world.outcomes ++ [o] = st.world.outcomes ++ [o'] := by
    rw [← hlog, ← hlog', hworld]
  obtain rfl : o = o' := List.singleton_inj.mp (List.append_cancel_left hlogs)
  have hsame : sccGroup' = sccGroup := hgroup'.symm.trans hgroup
  exact fresh_blockName hq hplain hreach hqueue (hsame ▸ hget)

/-- The outputs of the start agree: nothing is logged. -/
theorem OutputsAgree.start (translation : Translation ω) (funcMap : FuncMap) (merged : String) :
    OutputsAgree env ⟨translation, funcMap, "", none, fun _ => none, []⟩ merged :=
  ⟨fun _ ho => (nomatch ho), fun _ ho => nomatch ho⟩

/-- **A faithful run keeps its outputs together**, by induction on the passes. -/
theorem OutputsAgree.reached (hq : q.Sound funcMap) (hplain : funcMap.PlainNames)
    (hfaithful : FaithfulRun env order q funcMap translation)
    (hreach : SccLoop.Reached order q (env.translateGroup q.contextedStructs)
      ⟨translation, funcMap, "", none, fun _ => none, []⟩ st) :
    OutputsAgree env st.world (env.mergedFuncs q.contextedStructs st.world) := by
  induction hreach with
  | refl => exact .start translation funcMap _
  | @tail st st' hst hpass ih =>
    have hworld := sccPass_cases hpass
    obtain ⟨sccId, rest, sccGroup, world, -, hget, hunit, hst'⟩ := hworld
    have hne := hq.groups.nonempty sccGroup (List.mem_of_getElem? hget)
    obtain ⟨-, unitEnd, hend⟩ := translateGroup_end hne hunit
    have hend' : GroupEnd env st.world sccGroup st'.world unitEnd := by
      rw [hst', SccLoop.world_foldl_decrement]
      exact hend
    apply (pass_iff hq hplain hst hpass hend' ih).mpr
    exact hfaithful st st' sccGroup unitEnd hst hpass hend'

end Run

/-- The outputs of the run agree: the claim of `split_blocks` to be what was merged. -/
def PipelineEnv.RunAgrees (env : PipelineEnv ω) (order : SetOrder Nat) (funcMap : FuncMap)
    (translation : Translation ω) : Prop :=
  ∀ p merged, env.runSccTopoTranslateLoop order funcMap [] translation = some p →
    p.mergedFile = some merged → OutputsAgree env p merged

/-- **When the outputs agree.** In a run whose groups all end faithfully the functions logged as added
are defined in the final file and their blocks are the text they have there; and no run whose outputs
agree throughout has a group that ends otherwise. -/
theorem runSccTopoTranslateLoop_outputs (env : PipelineEnv ω) (order : SetOrder Nat)
    (funcMap : FuncMap) (hplain : funcMap.PlainNames) (typeCodes : List (Option String))
    (translation : Translation ω) (q : SccTopoQueue)
    (hcreate : createSccTopoQueue funcMap typeCodes = some q) :
    (FaithfulRun env order q funcMap translation ↔
      ∀ st, SccLoop.Reached order q (env.translateGroup q.contextedStructs)
        ⟨translation, funcMap, "", none, fun _ => none, []⟩ st →
          OutputsAgree env st.world (env.mergedFuncs q.contextedStructs st.world)) ∧
    (FaithfulRun env order q funcMap translation →
      ∀ p, env.runSccTopoTranslateLoop order funcMap typeCodes translation = some p →
        ∃ merged, p.mergedFile = some merged ∧ OutputsAgree env p merged) := by
  obtain ⟨q', hcreate', hq, -⟩ := createSccTopoQueue_sound funcMap typeCodes
  obtain rfl := Option.some.inj (hcreate.symm.trans hcreate')
  refine ⟨⟨fun hfaithful st hreach => .reached hq hplain hfaithful hreach, ?_⟩, ?_⟩
  · intro hagree st st' sccGroup unitEnd hreach hpass hend
    exact (OutputsAgree.pass_iff hq hplain hreach hpass hend (hagree st hreach)).mp
      (hagree st' (hreach.tail hpass))
  · intro hfaithful p hrun
    unfold PipelineEnv.runSccTopoTranslateLoop at hrun
    rw [hcreate, Option.bind_some] at hrun
    obtain ⟨st, hst, rfl⟩ := Option.map_eq_some_iff.mp hrun
    have hagree := OutputsAgree.reached hq hplain hfaithful (runSccLoop_reached hst)
    exact ⟨_, rfl, hagree.defined, hagree.stored⟩

/-! ## Two functions -/

/-- `f` calls `g`. -/
def twoFunctions : FuncMap := .ofEdges [("f", ["g"]), ("g", [])] (by decide)

/-- A translation that starts with nothing but the replies of the agent. -/
def repliesOnly (world : List Reply) : Translation (List Reply) := ⟨world, "", [], fun _ => ""⟩

/-- An agent that translates `g` and then `f`. -/
def goodReplies : Translation (List Reply) :=
  repliesOnly [.edited "fn g() ok", .edited "fn g() ok\nfn f() ok"]

/-- The theorem at a run over two functions, both accepted. -/
theorem runSccTopoTranslateLoop_outputs_twoFunctions : ∃ p merged,
    (scriptedPipeline 0 false []).runSccTopoTranslateLoop (.ascending Nat) twoFunctions []
      goodReplies = some p ∧
    p.mergedFile = some merged ∧ p.outcomes = [⟨["g"], true, false⟩, ⟨["f"], true, false⟩] ∧
    OutputsAgree (scriptedPipeline 0 false []) p merged := by
  have hpasses : ((createSccTopoQueue twoFunctions []).bind fun q =>
      let pass := sccPass (.ascending Nat) q
        ((scriptedPipeline 0 false []).translateGroup q.contextedStructs)
      (pass (.start q ⟨goodReplies, twoFunctions, "", none, fun _ => none, []⟩)).bind fun st =>
        (pass st).map fun st' =>
          ((st.world.outcomes, st.world.translation.agentFile),
            (st'.world.outcomes, st'.world.translation.agentFile, st'.sccQueue))) =
      some (([⟨["g"], true, false⟩], "fn g() ok"),
        ([⟨["g"], true, false⟩, ⟨["f"], true, false⟩], "fn g() ok\nfn f() ok", [])) := by
    decide +kernel
  obtain ⟨q, hcreate, hpasses⟩ := Option.bind_eq_some_iff.mp hpasses
  obtain ⟨st₁, hpass₁, hpasses⟩ := Option.bind_eq_some_iff.mp hpasses
  obtain ⟨st₂, hpass₂, hfacts⟩ := Option.map_eq_some_iff.mp hpasses
  simp only [Prod.mk.injEq] at hfacts
  obtain ⟨⟨hlog₁, hfile₁⟩, hlog₂, hfile₂, hqueue₂⟩ := hfacts
  have hfaithful : FaithfulRun (scriptedPipeline 0 false []) (.ascending Nat) q twoFunctions
      goodReplies := by
    intro st st' sccGroup unitEnd hreach hpass hunit
    apply hunit.faithful_of_unprompted rfl
    obtain ⟨o, hgroup, hlog, -⟩ := hunit.outcome
    rcases hreach.cases_head with rfl | ⟨s₁, hs₁, hreach⟩
    · obtain rfl := Option.some.inj (hpass.symm.trans hpass₁)
      obtain rfl : o = ⟨["g"], true, false⟩ := List.singleton_inj.mp (hlog.symm.trans hlog₁)
      subst hgroup
      rw [hfile₁]
      exact ⟨by decide +kernel, fun _ ho => nomatch ho⟩
    obtain rfl := Option.some.inj (hpass₁.symm.trans hs₁)
    rcases hreach.cases_head with rfl | ⟨s₂, hs₂, hreach⟩
    · obtain rfl := Option.some.inj (hpass.symm.trans hpass₂)
      rw [hlog₁, hlog₂] at hlog
      obtain rfl : ⟨["f"], true, false⟩ = o := by simpa using hlog
      subst hgroup
      rw [hfile₂]
      refine ⟨by decide +kernel, ?_⟩
      unfold PipelineEnv.KeepsTexts
      rw [hlog₁, hfile₁]
      decide +kernel
    obtain rfl := Option.some.inj (hpass₂.symm.trans hs₂)
    have hstop : ∀ s, sccPass (.ascending Nat) q
        ((scriptedPipeline 0 false []).translateGroup q.contextedStructs) st₂ ≠ some s := by
      intro s hs
      unfold sccPass at hs
      rw [hqueue₂] at hs
      cases hs
    rcases hreach.cases_head with rfl | ⟨s₃, hs₃, -⟩
    · exact absurd hpass (hstop st')
    · exact absurd hs₃ (hstop s₃)
  have hrun : ((scriptedPipeline 0 false []).runSccTopoTranslateLoop (.ascending Nat) twoFunctions
      [] goodReplies).map (fun p => p.outcomes) =
        some [⟨["g"], true, false⟩, ⟨["f"], true, false⟩] := by
    decide +kernel
  obtain ⟨p, hp, houtcomes⟩ := Option.map_eq_some_iff.mp hrun
  obtain ⟨merged, hmerged, hagree⟩ := (runSccTopoTranslateLoop_outputs (scriptedPipeline 0 false [])
    (.ascending Nat) twoFunctions (by unfold FuncMap.PlainNames; decide +kernel) [] goodReplies q
    hcreate).2 hfaithful p hp
  exact ⟨p, merged, hp, hmerged, houtcomes, hagree⟩

/-- A function fixed by hand is not in the merged file, and a function that a later session rewrites
keeps its old block. -/
theorem runSccTopoTranslateLoop_outputs_apart :
    (¬ (scriptedPipeline 0 true [.enter (some "fn f() fixed")]).RunAgrees (.ascending Nat)
      twoFunctions (repliesOnly [.edited "fn g() ok", .edited "fn g() ok\nfn f() bad"])) ∧
    ¬ (scriptedPipeline 0 false []).RunAgrees (.ascending Nat) twoFunctions
      (repliesOnly [.edited "fn g() ok", .edited "fn g() new\nfn f() ok"]) := by
  constructor
  · intro hagrees
    have hrun : ((scriptedPipeline 0 true [.enter (some "fn f() fixed")]).runSccTopoTranslateLoop
        (.ascending Nat) twoFunctions []
        (repliesOnly [.edited "fn g() ok", .edited "fn g() ok\nfn f() bad"])).map
          (fun p => (p.outcomes, p.mergedFile)) =
        some ([⟨["g"], true, false⟩, ⟨["f"], true, true⟩], some "fn g() ok") := by
      decide +kernel
    obtain ⟨p, hp, hfacts⟩ := Option.map_eq_some_iff.mp hrun
    obtain ⟨houtcomes, hmerged⟩ := Prod.mk.inj hfacts
    have hdefined := (hagrees p _ hp hmerged).defined ⟨["f"], true, true⟩ (by simp [houtcomes]) rfl
    revert hdefined
    decide +kernel
  · intro hagrees
    have hrun : ((scriptedPipeline 0 false []).runSccTopoTranslateLoop (.ascending Nat)
        twoFunctions [] (repliesOnly [.edited "fn g() ok", .edited "fn g() new\nfn f() ok"])).map
          (fun p => (p.outcomes, p.mergedFile, p.splitBlocks "g")) =
        some ([⟨["g"], true, false⟩, ⟨["f"], true, false⟩], some "fn g() new\nfn f() ok",
          some "fn g() ok") := by
      decide +kernel
    obtain ⟨p, hp, hfacts⟩ := Option.map_eq_some_iff.mp hrun
    obtain ⟨houtcomes, hfacts⟩ := Prod.mk.inj hfacts
    obtain ⟨hmerged, hblock⟩ := Prod.mk.inj hfacts
    have hstored := (hagrees p _ hp hmerged).stored ⟨["g"], true, false⟩ (by simp [houtcomes]) rfl
    have hname : blockName ["g"] = "g" := by decide +kernel
    rw [hname, hblock] at hstored
    revert hstored
    decide +kernel

end Assure
