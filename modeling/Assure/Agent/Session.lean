import Assure.Library.Regex
import Mathlib.Tactic.Common

/-!
# One agent session

`agentRun` has the agent carry out a task by editing `rust/out.rs`, checks the file after every
round, and sends a rejection back into the session. Everything outside the pipeline is a parameter
(`AgentEnv`): what an invocation of the agent leaves behind depends in any way on all that happened
before (`world`), and so does the clock.

`none` is an exception that leaves the run: a provider error no waiting fixes, or a round that ends
without the file and without code in the reply. What matters to the callers is `agentRun_accepted`:
a session succeeds only with a result the check accepted.
-/

namespace Assure

open Assure.Library

/-- A Rust function as the parser lists it: its name, its text and its signature. -/
structure RustFunction where
  name : String
  text : String
  signature : String

/-- The provider error an invocation ended on. -/
structure ApiError where
  status : Int
  message : String

/-- What an invocation of the agent is given: the arguments of `_agentInvoke` and the files of the
workspace. -/
structure Invocation where
  name : String
  kind : String
  message : String
  sessionId : Option String
  task : String
  context : String
  out : Option String

/-- What an invocation leaves behind: `rust/out.rs`, and what `_agentInvoke` returns. -/
structure Reply where
  out : Option String
  foundSession : Option String
  finalText : String
  apiError : Option ApiError

/-- **What the agent mode runs on**: the settings, the agent and the clock, the compiler, the Rust
parser, and the pipeline's text functions. -/
structure AgentEnv (ω : Type*) where
  charClass : CharClass
  compilationRetries : Int
  agentUnitTimeout : Int
  agentInvoke : ω → Invocation → ω × Reply
  monotonic : ω → ω × Int
  compile : String → Bool × String
  agentFunctions : String → List RustFunction
  cleanCode : String → String
  extractTargetCode : String → String
  extractRustcImportSuggestions : String → List String
  errorLines : String → String

/-- `_FATAL_API_STATUSES` -/
def fatalApiStatuses : List Int := [401, 402, 403, 404]

/-- `_API_ERROR_BACKOFF`: the seconds before each retry. -/
def apiErrorBackoff : List Nat := [30, 120, 300]

/-- The verdict of a check: `(successFlag, errorText, result)`. -/
structure Verdict where
  successFlag : Bool
  err : String
  result : String

/-- What a session ends with: the world after it, and `(successFlag, result)`. -/
structure Ended (ω : Type*) where
  world : ω
  successFlag : Bool
  result : String

variable {ω : Type*}

/-- **`_agentInvokeWithBackoff`**: invoke the agent, again after a pause while a provider error left
no result, and raise on an error that no waiting fixes. -/
def AgentEnv.agentInvokeWithBackoff (env : AgentEnv ω) (outInitial : Option String) :
    List Nat → ω → Invocation → Option (ω × Reply)
  | pauses, world, invocation =>
    let (world, reply) := env.agentInvoke world invocation
    match reply.apiError with
    | none => some (world, reply)
    | some apiError =>
      if reply.out ≠ none ∧ reply.out ≠ outInitial then some (world, reply)
      else if apiError.status ∈ fatalApiStatuses then none
      else match pauses with
        | [] => some (world, reply)
        | _ :: pauses => env.agentInvokeWithBackoff outInitial pauses world
            { invocation with
              sessionId := invocation.sessionId <|> reply.foundSession
              out := reply.out }

/-- The variables of `_agentRun` between rounds; `out` is the file `rust/out.rs`. -/
structure Round (ω : Type*) where
  world : ω
  out : Option String
  message : String
  sessionId : Option String
  lastResult : String

/-- The task of a session: what `_agentRun` writes to the workspace and tells the agent. -/
structure Task where
  name : String
  kind : String
  task : String
  contextRust : String
  outInitial : Option String

/-- The first message. -/
def Task.start (t : Task) : String :=
  if t.outInitial.isSome then "Read task.md and carry it out by editing rust/out.rs in place."
  else "Read task.md and carry it out. Write the result to rust/out.rs."

/-- The code a round is judged by: the file, or code in the reply where the file was not touched. -/
def AgentEnv.roundCode (env : AgentEnv ω) (t : Task) (reply : Reply) : Option String :=
  if reply.out = none ∨ reply.out = t.outInitial then
    let answer := env.extractTargetCode reply.finalText
    match t.outInitial with
    | none => some answer
    | some outInitial =>
      -- only a fenced block is code to add to the translation
      if contains reply.finalText "```" ∧ strip env.charClass answer ≠ "" then
        some (outInitial ++ "\n" ++ answer)
      else reply.out
  else reply.out

/-- **One round of the loop in `_agentRun`**: the end of the session, or the variables of the next
round. -/
def AgentEnv.agentRound (env : AgentEnv ω) (t : Task) (check : String → Verdict) (attempt : Nat)
    (r : Round ω) : Option (Ended ω ⊕ Round ω) :=
  (env.agentInvokeWithBackoff t.outInitial apiErrorBackoff r.world
    { name := t.name
      kind := if attempt = 0 then t.kind else t.kind ++ "_retry"
      message := r.message
      sessionId := r.sessionId
      task := t.task
      context := t.contextRust
      out := r.out }).bind fun (world, reply) =>
    let sessionId := r.sessionId <|> reply.foundSession
    let again (lastResult message : String) : Ended ω ⊕ Round ω :=
      .inr { world, out := reply.out, sessionId, lastResult
             message := if sessionId.isSome then message else t.start ++ "\n" ++ message }
    (env.roundCode t reply).map fun code =>
      if strip env.charClass code ≠ "" then
        let verdict := check code
        if verdict.successFlag then .inl ⟨world, true, verdict.result⟩
        else again verdict.result
          ("rust/out.rs was rejected by the pipeline's compile check. Fix rust/out.rs.\n" ++
            env.errorLines verdict.err)
      else again r.lastResult "rust/out.rs is missing or empty. Write the result to rust/out.rs."

/-- The clock before an attempt; it is not read before the first. -/
def AgentEnv.clock (env : AgentEnv ω) (deadline : Int) (attempt : Nat) (world : ω) : ω × Int :=
  if attempt = 0 then (world, deadline) else env.monotonic world

/-- The loop over the attempts: it ends early when the unit's time is used up. -/
def AgentEnv.agentRounds (env : AgentEnv ω) (t : Task) (check : String → Verdict) (deadline : Int) :
    List Nat → Round ω → Option (Ended ω)
  | [], r => some ⟨r.world, false, r.lastResult⟩
  | attempt :: attempts, r =>
    let (world, now) := env.clock deadline attempt r.world
    if deadline < now then some ⟨world, false, r.lastResult⟩
    else (env.agentRound t check attempt { r with world }).bind fun
      | .inl ended => some ended
      | .inr next => env.agentRounds t check deadline attempts next

/-- **`_agentRun`** -/
def AgentEnv.agentRun (env : AgentEnv ω) (world : ω) (t : Task) (check : String → Verdict) :
    Option (Ended ω) :=
  let (world, now) := env.monotonic world
  env.agentRounds t check (now + env.agentUnitTimeout)
    (List.range (env.compilationRetries + 1).toNat)
    { world, out := t.outInitial, message := t.start, sessionId := none, lastResult := "" }

variable {env : AgentEnv ω} {t : Task} {check : String → Verdict}

/-- A round that ends the session ends it with an accepted result. -/
theorem agentRound_accepted {attempt : Nat} {r : Round ω} {ended : Ended ω}
    (h : env.agentRound t check attempt r = some (.inl ended)) :
    ended.successFlag = true ∧
      ∃ code, (check code).successFlag = true ∧ (check code).result = ended.result := by
  unfold AgentEnv.agentRound at h
  obtain ⟨⟨world, reply⟩, -, h⟩ := Option.bind_eq_some_iff.mp h
  obtain ⟨code, -, h⟩ := Option.map_eq_some_iff.mp h
  dsimp only at h
  split at h
  · split at h
    · rename_i hflag
      cases h
      exact ⟨rfl, code, hflag, rfl⟩
    · cases h
  · cases h

/-- **A session succeeds only with a result the check accepted**, by induction on the attempts. -/
theorem agentRounds_accepted {deadline : Int} {ended : Ended ω} :
    ∀ (attempts : List Nat) (r : Round ω),
      env.agentRounds t check deadline attempts r = some ended → ended.successFlag = true →
        ∃ code, (check code).successFlag = true ∧ (check code).result = ended.result := by
  intro attempts
  induction attempts with
  | nil =>
    intro r h hflag
    cases h
    cases hflag
  | cons attempt attempts ih =>
    intro r h hflag
    unfold AgentEnv.agentRounds at h
    dsimp only at h
    split at h
    · cases h
      cases hflag
    · obtain ⟨next, hround, h⟩ := Option.bind_eq_some_iff.mp h
      cases next with
      | inl ended' =>
        cases h
        exact (agentRound_accepted hround).2
      | inr next => exact ih next h hflag

/-- A run that ends with its success flag set ends with the result of a text that passed the check,
whichever of its rounds the text came from. -/
theorem agentRun_accepted {world : ω} {ended : Ended ω}
    (h : env.agentRun world t check = some ended) (hflag : ended.successFlag = true) :
    ∃ code, (check code).successFlag = true ∧ (check code).result = ended.result :=
  agentRounds_accepted _ _ h hflag

/-! ## What the agent hands in -/

/-- The text a round is judged by, if the round leaves one. -/
def AgentEnv.judgedCode (env : AgentEnv ω) (t : Task) (attempt : Nat) (r : Round ω) : Option String :=
  ((env.agentInvokeWithBackoff t.outInitial apiErrorBackoff r.world
    { name := t.name
      kind := if attempt = 0 then t.kind else t.kind ++ "_retry"
      message := r.message
      sessionId := r.sessionId
      task := t.task
      context := t.contextRust
      out := r.out }).bind fun left => env.roundCode t left.2).filter fun code =>
        strip env.charClass code ≠ ""

/-- The texts that are judged, from an attempt on. -/
def AgentEnv.judgedCodes (env : AgentEnv ω) (t : Task) (check : String → Verdict) (deadline : Int) :
    List Nat → Round ω → List String
  | [], _ => []
  | attempt :: attempts, r =>
    let (world, now) := env.clock deadline attempt r.world
    if deadline < now then []
    else
      (env.judgedCode t attempt { r with world }).toList ++
        match env.agentRound t check attempt { r with world } with
        | some (.inr next) => env.judgedCodes t check deadline attempts next
        | _ => []

/-- **The texts the agent hands in over a session.** -/
def AgentEnv.handedIn (env : AgentEnv ω) (world : ω) (t : Task) (check : String → Verdict) : List String :=
  let (world, now) := env.monotonic world
  env.judgedCodes t check (now + env.agentUnitTimeout)
    (List.range (env.compilationRetries + 1).toNat)
    { world, out := t.outInitial, message := t.start, sessionId := none, lastResult := "" }

/-- A round that ends the run does so on the text it judged, and that text passed the check. -/
theorem agentRound_ended {attempt : Nat} {r : Round ω} {ended : Ended ω}
    (h : env.agentRound t check attempt r = some (.inl ended)) :
    ∃ code, env.judgedCode t attempt r = some code ∧ (check code).successFlag = true ∧
      (check code).result = ended.result := by
  unfold AgentEnv.agentRound at h
  obtain ⟨⟨world, reply⟩, hreply, h⟩ := Option.bind_eq_some_iff.mp h
  obtain ⟨code, hcode, h⟩ := Option.map_eq_some_iff.mp h
  dsimp only at h
  split at h
  · rename_i hstrip
    split at h
    · rename_i hflag
      cases h
      refine ⟨code, ?_, hflag, rfl⟩
      rw [AgentEnv.judgedCode, hreply, Option.bind_some, hcode]
      simp [hstrip]
    · cases h
  · cases h

/-- A round that goes on has judged its text and found that it does not pass. -/
theorem agentRound_next {attempt : Nat} {r next : Round ω}
    (h : env.agentRound t check attempt r = some (.inr next)) {code : String}
    (hjudged : env.judgedCode t attempt r = some code) : (check code).successFlag = false := by
  unfold AgentEnv.agentRound at h
  obtain ⟨⟨world, reply⟩, hreply, h⟩ := Option.bind_eq_some_iff.mp h
  obtain ⟨code', hcode, h⟩ := Option.map_eq_some_iff.mp h
  rw [AgentEnv.judgedCode, hreply, Option.bind_some, hcode] at hjudged
  obtain ⟨hsome, hstrip⟩ := Option.filter_eq_some_iff.mp hjudged
  obtain rfl := Option.some.inj hsome
  dsimp only at h
  rw [if_pos (of_decide_eq_true hstrip)] at h
  split at h
  · cases h
  · rename_i hflag
    exact Bool.eq_false_iff.mpr hflag

/-- The first text handed in that the check accepts. -/
def AgentEnv.passedText (env : AgentEnv ω) (world : ω) (t : Task) (check : String → Verdict) : Option String :=
  (env.handedIn world t check).find? fun code => (check code).successFlag

/-- **How a session ends**: with the first text that the check accepts, or after it refused every one. -/
theorem agentRounds_judged {deadline : Int} {ended : Ended ω} :
    ∀ (attempts : List Nat) (r : Round ω), env.agentRounds t check deadline attempts r = some ended →
      (ended.successFlag = true → ∃ code, (env.judgedCodes t check deadline attempts r).find?
        (fun code => (check code).successFlag) = some code ∧ (check code).result = ended.result) ∧
      (ended.successFlag = false → (env.judgedCodes t check deadline attempts r).find?
        (fun code => (check code).successFlag) = none) := by
  intro attempts
  induction attempts with
  | nil =>
    intro r h
    cases h
    exact ⟨fun hflag => (nomatch hflag), fun _ => rfl⟩
  | cons attempt attempts ih =>
    intro r h
    unfold AgentEnv.agentRounds at h
    unfold AgentEnv.judgedCodes
    dsimp only at h ⊢
    split at h
    · rename_i htime
      cases h
      rw [if_pos htime]
      exact ⟨fun hflag => (nomatch hflag), fun _ => rfl⟩
    · rename_i htime
      rw [if_neg htime]
      obtain ⟨next, hround, h⟩ := Option.bind_eq_some_iff.mp h
      cases next with
      | inl ended' =>
        cases h
        obtain ⟨code, hcode, hcheck, hresult⟩ := agentRound_ended hround
        have hflag := (agentRound_accepted hround).1
        rw [hcode, hflag]
        exact ⟨fun _ => ⟨code, by simp [hcheck], hresult⟩, fun hflag => nomatch hflag⟩
      | inr next =>
        have hfirst : (env.judgedCode t attempt { r with world := (env.clock deadline attempt r.world).1 }).toList.find?
            (fun code => (check code).successFlag) = none := by
          refine List.find?_eq_none.mpr fun code hcode => ?_
          rw [agentRound_next hround (Option.mem_toList.mp hcode)]
          exact Bool.false_ne_true
        rw [hround, List.find?_append, hfirst, Option.none_or]
        exact ih next h

/-- The text that the run hands back is the first one to pass: the flag is set exactly when there is
one, and the result is the check's own for it. -/
theorem agentRun_passedText {world : ω} {ended : Ended ω} (h : env.agentRun world t check = some ended) :
    (ended.successFlag = true → ∃ code, env.passedText world t check = some code ∧
      (check code).result = ended.result) ∧
    (ended.successFlag = false → env.passedText world t check = none) :=
  agentRounds_judged _ _ h

end Assure
