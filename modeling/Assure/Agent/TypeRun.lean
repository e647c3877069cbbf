import Assure.Agent.RunSafety
import Assure.Library.RustText

/-!
# What the types of an agent-mode run define

The types come first in a run: batches the agent adds to the file, and typedefs the pipeline resolved
itself. The file is to have an item for each type node in the end, since every node then gets the
whole file as its code. That is checked by a search for the name behind an item keyword, and only
where the agent left the file as it was: an edited file passes without it, a name in a comment is
found as well, and a batch that failed is registered like the others.

So an accepted batch has its items in the file exactly if the check overlooks nothing in the text that
it lets pass (`Overlooked`), and a node has its item in the end if a step puts it in and no later edit
leaves it out (`SettledAfter`), whether it was registered before or after that. `runUnits_typesDefined`
says both for all runs. The second half has no converse: where a typedef is appended to a file that is no
Rust text, or an item keyword ends one text and the name begins the next, an item may come about that no
step has put in.
-/

namespace Assure

open Assure.Library Assure.Library.RustToken

/-! ## Items of a text -/

/-- A text with the tokens of Rust. -/
def IsRustText (charClass : CharClass) (code : String) : Prop :=
  ∃ tokens, WellLexed charClass tokens ∧ textOf tokens = code.toList

/-- **A text defines a name**: an item keyword and the name stand in its code, outside comments and
literals. -/
def DefinesItem (charClass : CharClass) (code name : String) : Prop :=
  ∃ tokens, WellLexed charClass tokens ∧ textOf tokens = code.toList ∧
    agentDefines charClass (String.ofList (codeOnly tokens)) name = true

section

variable {charClass : CharClass} {code rest name : String}

/-- The empty file, with which a run starts, is lexically valid. -/
theorem IsRustText.empty : IsRustText charClass "" := ⟨[], trivial, rfl⟩

/-- A text that has an item of some name is lexically valid, since the item is found among its
tokens. -/
theorem DefinesItem.isRustText (h : DefinesItem charClass code name) : IsRustText charClass code :=
  let ⟨tokens, hlexed, htext, _⟩ := h
  ⟨tokens, hlexed, htext⟩

/-- `_agentDefines` finds in a text what it finds in some lines of it. -/
theorem agentDefines_part (front : List Char) {part back : List Char}
    (hfront : front.getLast?.any charClass.word = false)
    (hback : back.head?.any charClass.word = false)
    (h : agentDefines charClass (String.ofList part) name = true) :
    agentDefines charClass (String.ofList (front ++ (part ++ back))) name = true := by
  refine Pattern.Extends.found ?_ hfront hback h
  have hstatic : Pattern.Extends charClass (itemKeyword.staticMut charClass) :=
    .bind (.lit _) fun _ => .orElse (.bind (.many1 _) fun _ => .lit _) (.pure _)
  have hkeyword : Pattern.Extends charClass (itemKeyword charClass) :=
    .orElse (.lit _) <| .orElse (.lit _) <| .orElse (.lit _) <| .orElse (.lit _) <|
      .orElse (.lit _) <| .orElse hstatic (.lit _)
  exact .bind .boundary fun _ => .bind hkeyword fun _ => .bind (.many1 _) fun _ => .bind (.lit _) fun _ =>
    .boundary

/-- Two texts with a line break after each. -/
theorem IsRustText.lines {tokens tokens' : List RustToken} (hlexed : WellLexed charClass tokens)
    (htext : textOf tokens = code.toList) (hlexed' : WellLexed charClass tokens')
    (htext' : textOf tokens' = rest.toList) :
    WellLexed charClass (tokens ++ .code '\n' :: (tokens' ++ [.code '\n'])) ∧
      textOf (tokens ++ .code '\n' :: (tokens' ++ [.code '\n'])) = (code ++ "\n" ++ rest ++ "\n").toList := by
  have hnil : WellLexed charClass [] := trivial
  refine ⟨WellLexed.append_line (WellLexed.append_line hnil hlexed') hlexed, ?_⟩
  simp [htext, htext', RustToken.text]

/-- A lexically valid text may be set behind another on lines of its own: neither ends inside a
literal or a comment, so the joint is between tokens. -/
theorem IsRustText.append_line (h : IsRustText charClass code) (h' : IsRustText charClass rest) :
    IsRustText charClass (code ++ "\n" ++ rest ++ "\n") := by
  obtain ⟨tokens, hlexed, htext⟩ := h
  obtain ⟨tokens', hlexed', htext'⟩ := h'
  exact ⟨_, IsRustText.lines hlexed htext hlexed' htext'⟩

/-- **Text on new lines hides no item**, -/
theorem DefinesItem.append_line (h : DefinesItem charClass code name) (h' : IsRustText charClass rest) :
    DefinesItem charClass (code ++ "\n" ++ rest ++ "\n") name := by
  obtain ⟨tokens, hlexed, htext, hdefines⟩ := h
  obtain ⟨tokens', hlexed', htext'⟩ := h'
  obtain ⟨hlines, hlinesText⟩ := IsRustText.lines hlexed htext hlexed' htext'
  refine ⟨_, hlines, hlinesText, ?_⟩
  rw [codeOnly_append]
  exact agentDefines_part [] rfl (charClass.word_ascii '\n' (by decide)) hdefines

/-- and adds its own. -/
theorem DefinesItem.line_append (h : IsRustText charClass code) (h' : DefinesItem charClass rest name) :
    DefinesItem charClass (code ++ "\n" ++ rest ++ "\n") name := by
  obtain ⟨tokens, hlexed, htext⟩ := h
  obtain ⟨tokens', hlexed', htext', hdefines⟩ := h'
  obtain ⟨hlines, hlinesText⟩ := IsRustText.lines hlexed htext hlexed' htext'
  have hbreak : charClass.word '\n' = false := charClass.word_ascii '\n' (by decide)
  refine ⟨_, hlines, hlinesText, ?_⟩
  have hcode : codeOnly (tokens ++ .code '\n' :: (tokens' ++ [.code '\n'])) =
      (codeOnly tokens ++ ['\n']) ++ (codeOnly tokens' ++ ['\n']) := by
    rw [codeOnly_append, List.append_assoc]
    exact congrArg (codeOnly tokens ++ '\n' :: ·) (codeOnly_append tokens' _)
  rw [hcode]
  exact agentDefines_part (codeOnly tokens ++ ['\n']) (by simpa using hbreak) hbreak hdefines

end

/-! ## Runs -/

variable {ω : Type*}

/-- The nodes a unit is to define. -/
def TranslationUnit.batchNodes : TranslationUnit → List TypeNodeKey
  | .typeBatch _ _ batchNodes => batchNodes
  | _ => []

/-- The units before `agentFinishTypes`. -/
def TranslationUnit.IsTypes : TranslationUnit → Prop
  | .typeBatch .. | .resolvedTypedef .. => True
  | .finishTypes | .functions _ => False

/-- **The types of a run are defined**: an accepted batch has its items in the file, a rejected one left
the file alone, and every node that gets code has its item in it. -/
structure TypesDefined (env : AgentEnv ω) (reports : List UnitReport) (last : Translation ω) : Prop where
  accepted : ∀ r ∈ reports, r.accepted = true → ∀ node ∈ r.unit.batchNodes,
    DefinesItem env.charClass r.after node.name
  rejected : ∀ r ∈ reports, r.accepted = false → r.after = r.before
  finished : ∀ node ∈ last.agentTypeNodes, (agentFinishTypes last).rustCode node ≠ "" →
    DefinesItem env.charClass (agentFinishTypes last).agentFile node.name

/-- **What the check of a batch overlooks** in a text: a name without an item. It does not search for the names
in an edited file, and where it searches it also finds a name in a comment or a literal. -/
def Overlooked (charClass : CharClass) (agentFile code name : String) : Prop :=
  ¬ DefinesItem charClass code name ∧ (code ≠ agentFile ∨ agentDefines charClass code name = true)

namespace AgentEnv

/-- The check of a batch. -/
def batchCheck (env : AgentEnv ω) (batchNodes : List TypeNodeKey) (s : Translation ω) : String → Verdict :=
  env.typeBatchCheck s.agentFile batchNodes (env.agentFunctionNames s.agentFile).toFinset

/-- The text of a batch that the check lets pass, among those that the agent hands in. -/
def batchText (env : AgentEnv ω) (batchName request : String) (batchNodes : List TypeNodeKey)
    (s : Translation ω) : Option String :=
  env.passedText s.world
    { name := batchName, kind := "agent_type_batch", task := request, contextRust := ""
      outInitial := some s.agentFile } (env.batchCheck batchNodes s)

/-- A step in which a text passes with an overlooked node of the batch. -/
def Overlooks (env : AgentEnv ω) (s : Translation ω) : TranslationUnit → Prop
  | .typeBatch batchName request batchNodes =>
    ∃ code, env.batchText batchName request batchNodes s = some code ∧
      ∃ node ∈ batchNodes, Overlooked env.charClass s.agentFile code node.name
  | .resolvedTypedef .. | .finishTypes | .functions _ => False

/-- No step of a run overlooks a node. -/
def OverlooksNothing (env : AgentEnv ω) (agentFuncMap : List String) :
    List TranslationUnit → Translation ω → Prop
  | [], _ => True
  | unit :: units, s => ¬ env.Overlooks s unit ∧ ∀ s' accepted,
      env.runUnit agentFuncMap s unit = some (s', accepted) → env.OverlooksNothing agentFuncMap units s'

/-- **Whether a name is settled after a step**, if it was (or was not) before. An edited text that passes settles
the names that it has items for, and no others. A batch without one changes nothing. The code of a typedef that is
appended settles the names that it has items for, and leaves the others as they are if it is a Rust text. A name
counts as settled while the file is empty, since nodes get no code from it. -/
def SettledAfter (env : AgentEnv ω) (name : String) (s : Translation ω) (settled : Prop) : TranslationUnit → Prop
  | .typeBatch batchName request batchNodes =>
    match env.batchText batchName request batchNodes s with
    | some edited =>
      if edited = s.agentFile then settled else edited = "" ∨ DefinesItem env.charClass edited name
    | none => settled
  | .resolvedTypedef node rustCode =>
    if rustCode = "" ∨ agentDefines env.charClass s.agentFile node.name then settled
    else
      (IsRustText env.charClass s.agentFile ∧ DefinesItem env.charClass rustCode name) ∨
        (settled ∧ s.agentFile ≠ "" ∧ IsRustText env.charClass rustCode)
  | .finishTypes | .functions _ => settled

/-- Whether a name is settled in the end of a run. -/
def SettledIn (env : AgentEnv ω) (agentFuncMap : List String) (name : String) :
    List TranslationUnit → Translation ω → Prop → Prop
  | [], _, settled => settled
  | unit :: units, s, settled => ∀ s' accepted, env.runUnit agentFuncMap s unit = some (s', accepted) →
      env.SettledIn agentFuncMap name units s' (env.SettledAfter name s settled unit)

end AgentEnv

variable {env : AgentEnv ω} {agentFuncMap : List String}

/-- A file left as it was passes only with every node found in it. -/
theorem batchCheck_unchanged {batchNodes : List TypeNodeKey} {s : Translation ω}
    (h : (env.batchCheck batchNodes s s.agentFile).successFlag = true) :
    ∀ node ∈ batchNodes, agentDefines env.charClass s.agentFile node.name = true := by
  intro node hnode
  by_contra hundefined
  unfold AgentEnv.batchCheck AgentEnv.typeBatchCheck at h
  dsimp only at h
  rw [if_pos ⟨rfl, List.ne_nil_of_mem (List.mem_filter.mpr ⟨hnode, by simpa using hundefined⟩)⟩] at h
  cases h

/-- **A batch leaves the text that passes**, or the file as it was. -/
theorem typeBatch_text {batchName request : String} {batchNodes : List TypeNodeKey} {s s' : Translation ω}
    {accepted : Bool} (h : env.agentTranslateTypeBatch batchName request batchNodes s = some (s', accepted)) :
    match env.batchText batchName request batchNodes s with
    | some edited =>
      accepted = true ∧ s'.agentFile = edited ∧ (env.batchCheck batchNodes s edited).successFlag = true
    | none => accepted = false ∧ s'.agentFile = s.agentFile := by
  obtain ⟨ended, hrun, h⟩ := Option.map_eq_some_iff.mp h
  obtain ⟨haccepted, hrefused⟩ := agentRun_passedText hrun
  cases h
  dsimp only
  cases hflag : ended.successFlag with
  | true =>
    obtain ⟨code, hcode, hresult⟩ := haccepted hflag
    have hpasses := List.find?_some (p := fun code => (env.batchCheck batchNodes s code).successFlag) hcode
    have hpassed : env.batchText batchName request batchNodes s = some code := hcode
    rw [hpassed]
    exact ⟨rfl, (hresult.symm.trans (typeBatchCheck_passed hpasses).1), hpasses⟩
  | false =>
    have hnone : env.batchText batchName request batchNodes s = none := hrefused hflag
    rw [hnone]
    exact ⟨rfl, rfl⟩

/-- **A text that passes** has an item for each node that is not overlooked in it. -/
theorem definesItem_of_passed {batchNodes : List TypeNodeKey} {s : Translation ω} {code : String}
    (h : (env.batchCheck batchNodes s code).successFlag = true) {node : TypeNodeKey} (hnode : node ∈ batchNodes) :
    DefinesItem env.charClass code node.name ↔ ¬ Overlooked env.charClass s.agentFile code node.name := by
  refine ⟨fun hitem hover => hover.1 hitem, fun hseen => ?_⟩
  by_contra hitem
  refine hseen ⟨hitem, ?_⟩
  by_cases hedited : code = s.agentFile
  · subst hedited
    exact .inr (batchCheck_unchanged h node hnode)
  · exact .inl hedited

/-- **An accepted unit** has the items of its batch in the file exactly if it overlooks none. -/
theorem typeUnit_accepted {unit : TranslationUnit} {s s' : Translation ω} {accepted : Bool} (hunit : unit.IsTypes)
    (h : env.runUnit agentFuncMap s unit = some (s', accepted)) :
    (accepted = true → ∀ node ∈ unit.batchNodes, DefinesItem env.charClass s'.agentFile node.name) ↔
      ¬ env.Overlooks s unit := by
  cases unit with
  | typeBatch batchName request batchNodes =>
    have hleft := typeBatch_text h
    rw [AgentEnv.Overlooks]
    cases htext : env.batchText batchName request batchNodes s with
    | none =>
      rw [htext] at hleft
      rw [hleft.1]
      simp
    | some code =>
      rw [htext] at hleft
      obtain ⟨rfl, rfl, hpasses⟩ := hleft
      refine ⟨fun hitems hover => ?_, fun hnone _ node hnode => ?_⟩
      · obtain ⟨_, heq, node, hnode, hover⟩ := hover
        obtain rfl := Option.some.inj heq
        exact (definesItem_of_passed hpasses hnode).mp (hitems rfl node hnode) hover
      · refine (definesItem_of_passed hpasses hnode).mpr fun hover => hnone ⟨_, rfl, node, hnode, hover⟩
  | resolvedTypedef node rustCode => exact ⟨fun _ hover => hover, fun _ _ node hnode => nomatch hnode⟩
  | finishTypes => exact hunit.elim
  | functions => exact hunit.elim

/-- A rejected unit leaves the file alone. -/
theorem typeUnit_rejected {unit : TranslationUnit} {s s' : Translation ω} {accepted : Bool}
    (hunit : unit.IsTypes) (h : env.runUnit agentFuncMap s unit = some (s', accepted))
    (hrejected : accepted = false) : s'.agentFile = s.agentFile := by
  cases unit with
  | typeBatch batchName request batchNodes => exact (agentTranslateTypeBatch_spec h).2 hrejected
  | resolvedTypedef node rustCode =>
    cases h
    cases hrejected
  | finishTypes => exact hunit.elim
  | functions => exact hunit.elim

/-! ## What is in the file in the end -/

/-- A name has its item in the file, if there is a file. -/
def ItemInFile (charClass : CharClass) (agentFile name : String) : Prop :=
  agentFile ≠ "" → DefinesItem charClass agentFile name

/-- **A settled name has its item in the file**, after a step as before it. -/
theorem typeUnit_settled {unit : TranslationUnit} {s s' : Translation ω} {accepted : Bool} (hunit : unit.IsTypes)
    (h : env.runUnit agentFuncMap s unit = some (s', accepted)) {name : String} {settled : Prop}
    (hsettled : settled → ItemInFile env.charClass s.agentFile name)
    (hafter : env.SettledAfter name s settled unit) : ItemInFile env.charClass s'.agentFile name := by
  cases unit with
  | typeBatch batchName request batchNodes =>
    have hleft := typeBatch_text h
    rw [AgentEnv.SettledAfter] at hafter
    cases htext : env.batchText batchName request batchNodes s with
    | none =>
      rw [htext] at hleft hafter
      rw [hleft.2]
      exact hsettled hafter
    | some code =>
      rw [htext] at hleft hafter
      dsimp only at hafter
      obtain ⟨-, rfl, -⟩ := hleft
      split at hafter
      · rename_i hsame
        rw [hsame]
        exact hsettled hafter
      · intro hfile
        exact hafter.resolve_left hfile
  | resolvedTypedef node rustCode =>
    cases h
    unfold AgentEnv.SettledAfter at hafter
    unfold AgentEnv.agentAppendType
    dsimp only at hafter ⊢
    have hself : Function.update s.rustCode node rustCode node = rustCode := Function.update_self ..
    by_cases hkept : rustCode = "" ∨ agentDefines env.charClass s.agentFile node.name = true
    · rw [if_pos hkept] at hafter
      rw [if_neg fun happended => hkept.elim (fun hempty => happended.1 (hself.trans hempty)) happended.2]
      exact hsettled hafter
    · rw [if_neg hkept] at hafter
      obtain ⟨hne, hfound⟩ := not_or.mp hkept
      rw [if_pos ⟨fun hempty => hne (hself.symm.trans hempty), hfound⟩, hself]
      intro _
      rcases hafter with ⟨hfile, hcode⟩ | ⟨hbefore, hfile, hcode⟩
      · exact DefinesItem.line_append hfile hcode
      · exact (hsettled hbefore hfile).append_line hcode
  | finishTypes => exact hunit.elim
  | functions => exact hunit.elim

/-- A name that is settled before the run, or by one of its units, is an item of the file the run
ends with. The induction is over the units, and what carries it is that a later unit only appends.
-/
theorem runUnits_settled {units : List TranslationUnit} {s last : Translation ω} {reports : List UnitReport}
    (hunits : ∀ unit ∈ units, unit.IsTypes) (h : env.runUnits agentFuncMap units s = some (last, reports))
    {name : String} {settled : Prop} (hsettled : settled → ItemInFile env.charClass s.agentFile name)
    (hend : env.SettledIn agentFuncMap name units s settled) : ItemInFile env.charClass last.agentFile name := by
  induction units generalizing s reports settled with
  | nil =>
    cases h
    exact hsettled hend
  | cons unit units ih =>
    obtain ⟨⟨s', accepted⟩, hunit, h⟩ := Option.bind_eq_some_iff.mp h
    obtain ⟨⟨_, rest⟩, hrest, h⟩ := Option.map_eq_some_iff.mp h
    cases h
    have htypes := hunits unit List.mem_cons_self
    exact ih (fun u hu => hunits u (List.mem_cons_of_mem unit hu)) hrest
      (typeUnit_settled htypes hunit hsettled) (hend s' accepted hunit)

/-! ## Runs -/

/-- The accepted batches of a run have their items exactly if no step overlooks a node, and the rejected ones left
the file alone: by induction on the units. -/
theorem runUnits_accepted {units : List TranslationUnit} {s last : Translation ω} {reports : List UnitReport}
    (hunits : ∀ unit ∈ units, unit.IsTypes) (h : env.runUnits agentFuncMap units s = some (last, reports)) :
    ((∀ r ∈ reports, r.accepted = true → ∀ node ∈ r.unit.batchNodes,
      DefinesItem env.charClass r.after node.name) ↔ env.OverlooksNothing agentFuncMap units s) ∧
    ∀ r ∈ reports, r.accepted = false → r.after = r.before := by
  induction units generalizing s reports with
  | nil =>
    cases h
    exact ⟨⟨fun _ => trivial, fun _ r hr => nomatch hr⟩, fun r hr => nomatch hr⟩
  | cons unit units ih =>
    obtain ⟨⟨s', accepted⟩, hunit, h⟩ := Option.bind_eq_some_iff.mp h
    obtain ⟨⟨_, rest⟩, hrest, h⟩ := Option.map_eq_some_iff.mp h
    cases h
    have htypes := hunits unit List.mem_cons_self
    obtain ⟨haccepted, hrejected⟩ := ih (fun u hu => hunits u (List.mem_cons_of_mem unit hu)) hrest
    have honly : ∀ s'' accepted', env.runUnit agentFuncMap s unit = some (s'', accepted') → s'' = s' := by
      intro s'' accepted' h
      rw [hunit] at h
      exact (congrArg Prod.fst (Option.some.inj h)).symm
    rw [AgentEnv.OverlooksNothing, List.forall_mem_cons, List.forall_mem_cons, typeUnit_accepted htypes hunit]
    refine ⟨and_congr_right' ⟨fun hitems s'' accepted' h => ?_, fun hnone => ?_⟩,
      typeUnit_rejected htypes hunit, hrejected⟩
    · rw [honly s'' accepted' h]
      exact haccepted.mp hitems
    · exact haccepted.mpr (hnone s' accepted hunit)

/-- **What a run of types defines.** Its accepted batches have their items in the file exactly if no text passes with
an overlooked node, and its rejected ones left the file alone. If moreover each registered node is settled in the end,
all that is claimed of the types holds. The run starts with no file and no node. -/
theorem runUnits_typesDefined {units : List TranslationUnit} {s last : Translation ω}
    {reports : List UnitReport} (hfile : s.agentFile = "")
    (hunits : ∀ unit ∈ units, unit.IsTypes) (h : env.runUnits agentFuncMap units s = some (last, reports)) :
    ((∀ r ∈ reports, r.accepted = true → ∀ node ∈ r.unit.batchNodes,
      DefinesItem env.charClass r.after node.name) ↔ env.OverlooksNothing agentFuncMap units s) ∧
    (env.OverlooksNothing agentFuncMap units s →
      (∀ node ∈ last.agentTypeNodes, env.SettledIn agentFuncMap node.name units s True) →
        TypesDefined env reports last) := by
  obtain ⟨haccepted, hrejected⟩ := runUnits_accepted hunits h
  refine ⟨haccepted, fun hnone hsettled => ⟨haccepted.mpr hnone, hrejected, fun node hnode hcode => ?_⟩⟩
  have hitem : ItemInFile env.charClass last.agentFile node.name :=
    runUnits_settled hunits h (fun _ hne => absurd hfile hne) (hsettled node hnode)
  refine hitem fun hempty => hcode ?_
  rw [agentFinishTypes]
  dsimp only
  rw [if_pos hnode, hempty]

/-- An item in a text without quotes and slashes. -/
theorem definesItem_of_code {charClass : CharClass} {code name : String}
    (hlexed : WellLexed charClass (code.toList.map .code)) (hdefines : agentDefines charClass code name = true) :
    DefinesItem charClass code name := by
  refine ⟨_, hlexed, textOf_map_code _, ?_⟩
  rw [codeOnly_map_code, String.ofList_toList]
  exact hdefines

/-- A batch whose first edit the compiler refuses, and a typedef the pipeline resolved. -/
def scriptedTypes : List TranslationUnit :=
  [.typeBatch "S" "" [⟨.struct, "S"⟩], .resolvedTypedef ⟨.typedef, "T"⟩ "type T = u8;"]

/-- What the agent leaves for them. -/
def scriptedStart : Translation (List Reply) := ⟨[.edited "bad", .edited "struct S;"], "", [], fun _ => ""⟩

/-- The hypotheses of the run theorem can be met: a run of two units, both accepted, with a scripted
agent. -/
theorem runUnits_typesDefined_scripted : ∃ reports last,
    reports.map UnitReport.accepted = [true, true] ∧ last.agentTypeNodes.length = 2 ∧
      TypesDefined (scripted 1) reports last := by
  have hrun : ((scripted 1).runUnits [] scriptedTypes scriptedStart).map
      (fun r => (r.2.map UnitReport.accepted, r.1.agentTypeNodes)) =
        some ([true, true], [⟨.struct, "S"⟩, ⟨.typedef, "T"⟩]) := by decide +kernel
  have hbatch : ((scripted 1).runUnit [] scriptedStart (.typeBatch "S" "" [⟨.struct, "S"⟩])).map
      (fun r => r.1.agentFile) = some "struct S;" := by decide +kernel
  have htext : (scripted 1).batchText "S" "" [⟨.struct, "S"⟩] scriptedStart = some "struct S;" := by decide +kernel
  have hstruct : DefinesItem .ascii "struct S;" "S" := definesItem_of_code (by decide +kernel) (by decide +kernel)
  have htypedef : DefinesItem .ascii "type T = u8;" "T" := definesItem_of_code (by decide +kernel) (by decide +kernel)
  have hfile : ∀ s' accepted, (scripted 1).runUnit [] scriptedStart (.typeBatch "S" "" [⟨.struct, "S"⟩]) =
      some (s', accepted) → s'.agentFile = "struct S;" := by
    intro s' accepted hunit
    rw [hunit] at hbatch
    exact Option.some.inj hbatch
  obtain ⟨⟨last, reports⟩, h, hend⟩ := Option.map_eq_some_iff.mp hrun
  obtain ⟨haccepted, hnodes⟩ := Prod.mk.inj hend
  have htypes : ∀ unit ∈ scriptedTypes, unit.IsTypes := by
    intro unit hunit
    simp only [scriptedTypes, List.mem_cons, List.not_mem_nil, or_false] at hunit
    rcases hunit with rfl | rfl <;> trivial
  refine ⟨reports, last, haccepted, congrArg List.length hnodes, (runUnits_typesDefined rfl htypes h).2 ?_ ?_⟩
  · refine ⟨?_, fun s' accepted _ => ⟨id, fun _ _ _ => trivial⟩⟩
    rintro ⟨edited, hedited, node, hnode, hover⟩
    rw [htext] at hedited
    rw [← Option.some.inj hedited, List.mem_singleton.mp hnode] at hover
    exact hover.1 hstruct
  · intro node hnode s' accepted hunit _ _ _
    rw [hnodes] at hnode
    unfold AgentEnv.SettledAfter
    dsimp only
    rw [hfile s' accepted hunit, if_neg (by decide +kernel)]
    rcases List.mem_cons.mp hnode with rfl | hnode
    · refine .inr ⟨?_, by decide, htypedef.isRustText⟩
      show match (scripted 1).batchText "S" "" [⟨.struct, "S"⟩] scriptedStart with
        | some edited => if edited = "" then True else edited = "" ∨ DefinesItem .ascii edited "S"
        | none => True
      rw [htext]
      dsimp only
      rw [if_neg (by decide)]
      exact .inr hstruct
    · rw [List.mem_singleton.mp hnode]
      exact .inl ⟨hstruct.isRustText, htypedef⟩

/-- The agent writes another type than it was asked for. -/
theorem agentTranslateTypeBatch_otherType :
    (((scripted 1).runUnits [] [.typeBatch "S" "" [⟨.struct, "S"⟩], .finishTypes]
      ⟨[.edited "type T = u8;"], "", [], fun _ => ""⟩).map fun r =>
        (r.2.map UnitReport.accepted, r.1.agentFile, r.1.rustCode ⟨.struct, "S"⟩)) =
      some ([true, true], "type T = u8;", "type T = u8;") ∧
    ¬ DefinesItem .ascii "type T = u8;" "S" := by
  refine ⟨by decide +kernel, ?_⟩
  rintro ⟨tokens, -, htext, hdefines⟩
  have htokens : tokens = (textOf tokens).map .code := eq_map_code (by rw [htext]; simp)
  rw [htokens, codeOnly_map_code, htext] at hdefines
  exact absurd hdefines (by decide +kernel)

end Assure
