import Assure.Agent.Session

/-!
# How a session can end

The loop of `_agentRun` with the exceptions that leave it told apart, and with the rounds it makes: `agentRun` does not
tell a provider error from an attribute of `None` (`agentRunEnd_toOption`). A session that edits a file in place has no
code to judge after a round in which the agent deletes the file and gives no code in its reply.

The equivalence is for every session, reply and compiler (`agentRunEnd_iff`). What a round leaves of
`rust/out.rs` is its text or nothing; a directory in its place, a binary file and missing rights are
not modelled.
-/

namespace Assure

open Assure.Library

variable {ω : Type*}

/-- **What a session raises**: the `RuntimeError` of `_agentInvokeWithBackoff`, or the error on `None.strip()`. -/
inductive SessionError
  | runtimeError (error : ApiError)
  | attributeError

/-- `_agentInvokeWithBackoff`, with what it raises. -/
def AgentEnv.invokeOrRaise (env : AgentEnv ω) (outInitial : Option String) :
    List Nat → ω → Invocation → Except SessionError (ω × Reply)
  | pauses, world, invocation =>
    let (world, reply) := env.agentInvoke world invocation
    match reply.apiError with
    | none => .ok (world, reply)
    | some apiError =>
      if reply.out ≠ none ∧ reply.out ≠ outInitial then .ok (world, reply)
      else if apiError.status ∈ fatalApiStatuses then .error (.runtimeError apiError)
      else match pauses with
        | [] => .ok (world, reply)
        | _ :: pauses => env.invokeOrRaise outInitial pauses world
            { invocation with
              sessionId := invocation.sessionId <|> reply.foundSession
              out := reply.out }

/-- The invocation of a round. -/
def Task.invocation {ω : Type*} (t : Task) (attempt : Nat) (r : Round ω) : Invocation where
  name := t.name
  kind := if attempt = 0 then t.kind else t.kind ++ "_retry"
  message := r.message
  sessionId := r.sessionId
  task := t.task
  context := t.contextRust
  out := r.out

/-- What a round does with the code it is judged by. -/
def AgentEnv.judge (env : AgentEnv ω) (t : Task) (check : String → Verdict) (r : Round ω) (left : ω × Reply)
    (code : String) : Ended ω ⊕ Round ω :=
  let sessionId := r.sessionId <|> left.2.foundSession
  let again (lastResult message : String) : Ended ω ⊕ Round ω :=
    .inr { world := left.1, out := left.2.out, sessionId, lastResult
           message := if sessionId.isSome then message else t.start ++ "\n" ++ message }
  if strip env.charClass code ≠ "" then
    let verdict := check code
    if verdict.successFlag then .inl ⟨left.1, true, verdict.result⟩
    else again verdict.result
      ("rust/out.rs was rejected by the pipeline's compile check. Fix rust/out.rs.\n" ++ env.errorLines verdict.err)
  else again r.lastResult "rust/out.rs is missing or empty. Write the result to rust/out.rs."

/-- A round that was made: what the agent left, if its invocation returned, and the code the round is judged by. -/
structure RoundMade where
  reply : Option Reply
  code : Option String

/-- The loop over the attempts: the rounds that are made, and what it returns or raises. -/
def AgentEnv.roundsEnd (env : AgentEnv ω) (t : Task) (check : String → Verdict) (deadline : Int) :
    List Nat → Round ω → List RoundMade × Except SessionError (Ended ω)
  | [], r => ([], .ok ⟨r.world, false, r.lastResult⟩)
  | attempt :: attempts, r =>
    let (world, now) := env.clock deadline attempt r.world
    if deadline < now then ([], .ok ⟨world, false, r.lastResult⟩)
    else
      match env.invokeOrRaise t.outInitial apiErrorBackoff world (t.invocation attempt { r with world }) with
      | .error error => ([⟨none, none⟩], .error error)
      | .ok left =>
        match env.roundCode t left.2 with
        | none => ([⟨some left.2, none⟩], .error .attributeError)
        | some code =>
          match env.judge t check { r with world } left code with
          | .inl ended => ([⟨some left.2, some code⟩], .ok ended)
          | .inr next =>
            let (rounds, last) := env.roundsEnd t check deadline attempts next
            (⟨some left.2, some code⟩ :: rounds, last)

/-- **`_agentRun`**, with the rounds it makes and the exceptions it raises. -/
def AgentEnv.agentRunEnd (env : AgentEnv ω) (world : ω) (t : Task) (check : String → Verdict) :
    List RoundMade × Except SessionError (Ended ω) :=
  let (world, now) := env.monotonic world
  env.roundsEnd t check (now + env.agentUnitTimeout) (List.range (env.compilationRetries + 1).toNat)
    { world, out := t.outInitial, message := t.start, sessionId := none, lastResult := "" }

/-! ## The two readings of a session -/

variable {env : AgentEnv ω} {t : Task} {check : String → Verdict}

/-- Forgetting which exception was raised gives the calling loop of the earlier model back, so the
two models retry and give up alike. -/
theorem invokeOrRaise_toOption (outInitial : Option String) : ∀ (pauses : List Nat) (world : ω)
    (invocation : Invocation), (env.invokeOrRaise outInitial pauses world invocation).toOption =
      env.agentInvokeWithBackoff outInitial pauses world invocation := by
  intro pauses
  induction pauses with
  | nil =>
    intro world invocation
    rw [AgentEnv.invokeOrRaise.eq_def, AgentEnv.agentInvokeWithBackoff.eq_def]
    dsimp only
    cases (env.agentInvoke world invocation).2.apiError with
    | none => rfl
    | some apiError =>
      dsimp only
      split
      · rfl
      · split <;> rfl
  | cons pause pauses ih =>
    intro world invocation
    rw [AgentEnv.invokeOrRaise.eq_def, AgentEnv.agentInvokeWithBackoff.eq_def]
    dsimp only
    cases (env.agentInvoke world invocation).2.apiError with
    | none => rfl
    | some apiError =>
      dsimp only
      split
      · rfl
      · split
        · rfl
        · exact ih _ _

/-- A round of the earlier model, cut into its three parts: the call with its retries, the text read
off the answer, and the judgement of that text. -/
theorem agentRound_eq (attempt : Nat) (r : Round ω) : env.agentRound t check attempt r =
    (env.agentInvokeWithBackoff t.outInitial apiErrorBackoff r.world (t.invocation attempt r)).bind fun left =>
      (env.roundCode t left.2).map (env.judge t check r left) := rfl

/-- The rounds with their exceptions refine the rounds without: the same end where one is reached,
and no end exactly where an exception is raised. -/
theorem roundsEnd_toOption {deadline : Int} : ∀ (attempts : List Nat) (r : Round ω),
    (env.roundsEnd t check deadline attempts r).2.toOption = env.agentRounds t check deadline attempts r := by
  intro attempts
  induction attempts with
  | nil => exact fun _ => rfl
  | cons attempt attempts ih =>
    intro r
    rw [AgentEnv.roundsEnd, AgentEnv.agentRounds]
    dsimp only
    split
    · rfl
    · rw [agentRound_eq, ← invokeOrRaise_toOption]
      dsimp only
      cases env.invokeOrRaise t.outInitial apiErrorBackoff (env.clock deadline attempt r.world).1
          (t.invocation attempt { r with world := (env.clock deadline attempt r.world).1 }) with
      | error error => rfl
      | ok left =>
        show _ = Option.bind (Option.bind (some left) _) _
        rw [Option.bind_some]
        dsimp only
        cases env.roundCode t left.2 with
        | none => rfl
        | some code =>
          dsimp only [Option.map_some]
          rw [Option.bind_some]
          cases env.judge t check { r with world := (env.clock deadline attempt r.world).1 } left code with
          | inl ended => rfl
          | inr next => exact ih next

/-- **The sessions are those of `agentRun`.** -/
theorem agentRunEnd_toOption (world : ω) : (env.agentRunEnd world t check).2.toOption = env.agentRun world t check :=
  roundsEnd_toOption _ _

/-! ## The three ways -/

variable (env t check)

/-- **A session that ends as it should**: after no more rounds than there are attempts, with a result that the check
accepted in the last round, with a failure, or with the error of a provider that cannot be reached. -/
structure EndsWell (session : List RoundMade × Except SessionError (Ended ω)) : Prop where
  rounds : session.1.length ≤ (env.compilationRetries + 1).toNat
  ended : (∃ ended code reply, session.2 = .ok ended ∧ ended.successFlag = true ∧
      session.1.getLast? = some ⟨some reply, some code⟩ ∧ env.roundCode t reply = some code ∧
      (check code).successFlag = true ∧ (check code).result = ended.result) ∨
    (∃ ended, session.2 = .ok ended ∧ ended.successFlag = false) ∨
    ∃ error, session.2 = .error (.runtimeError error) ∧ error.status ∈ fatalApiStatuses

/-- **The file is lost**: a session that edits a file in place finds it deleted, and no code in the reply. -/
def FileLost (made : RoundMade) : Prop :=
  ∃ reply outInitial, made.reply = some reply ∧ t.outInitial = some outInitial ∧ reply.out = none ∧
    ¬ (contains reply.finalText "```" = true ∧ strip env.charClass (env.extractTargetCode reply.finalText) ≠ "")

variable {env t check}

/-- A round has no text to judge exactly when the agent was to write a file, left none behind, and
its final message holds no code block to use in its place. -/
theorem roundCode_eq_none_iff {reply : Reply} : env.roundCode t reply = none ↔
    ∃ outInitial, t.outInitial = some outInitial ∧ reply.out = none ∧
      ¬ (contains reply.finalText "```" = true ∧ strip env.charClass (env.extractTargetCode reply.finalText) ≠ "") := by
  rw [AgentEnv.roundCode]
  cases hinitial : t.outInitial with
  | none =>
    refine ⟨fun h => ?_, fun ⟨_, h, _⟩ => nomatch h⟩
    split at h
    · cases h
    · rename_i hout
      exact absurd (.inl h) hout
  | some outInitial =>
    constructor
    · intro h
      split at h
      · dsimp only at h
        split at h
        · cases h
        · rename_i hfence
          exact ⟨outInitial, rfl, h, hfence⟩
      · rename_i hout
        exact absurd (.inl h) hout
    · rintro ⟨_, -, hout, hfence⟩
      rw [if_pos (.inl hout)]
      dsimp only
      rw [if_neg hfence, hout]

/-- The only exception that comes out of the calling loop is the one for a fatal status of the
service. After any other error the loop calls again, and when the pauses run out it hands the reply
back. -/
theorem status_of_invokeOrRaise {outInitial : Option String} {error : SessionError} : ∀ {pauses : List Nat} {world : ω}
    {invocation : Invocation}, env.invokeOrRaise outInitial pauses world invocation = .error error →
      ∃ apiError, error = .runtimeError apiError ∧ apiError.status ∈ fatalApiStatuses := by
  intro pauses
  induction pauses with
  | nil =>
    intro world invocation h
    rw [AgentEnv.invokeOrRaise.eq_def] at h
    dsimp only at h
    split at h
    · cases h
    · rename_i apiError _
      split at h
      · cases h
      · split at h
        · rename_i hfatal
          cases h
          exact ⟨apiError, rfl, hfatal⟩
        · cases h
  | cons pause pauses ih =>
    intro world invocation h
    rw [AgentEnv.invokeOrRaise.eq_def] at h
    dsimp only at h
    split at h
    · cases h
    · rename_i apiError _
      split at h
      · cases h
      · split at h
        · rename_i hfatal
          cases h
          exact ⟨apiError, rfl, hfatal⟩
        · exact ih h

/-- A round ends the session with a result that the check accepted. -/
theorem judge_ended {r : Round ω} {left : ω × Reply} {code : String} {ended : Ended ω}
    (h : env.judge t check r left code = .inl ended) :
    ended.successFlag = true ∧ (check code).successFlag = true ∧ (check code).result = ended.result := by
  rw [AgentEnv.judge] at h
  dsimp only at h
  split at h
  · split at h
    · rename_i hflag
      obtain rfl := Sum.inl.inj h
      exact ⟨rfl, hflag, rfl⟩
    · cases h
  · cases h

/-- No run has more rounds than the limit it was given. -/
theorem roundsEnd_length {deadline : Int} : ∀ (attempts : List Nat) (r : Round ω),
    (env.roundsEnd t check deadline attempts r).1.length ≤ attempts.length := by
  intro attempts
  induction attempts with
  | nil => exact fun _ => Nat.le_refl 0
  | cons attempt attempts ih =>
    intro r
    rw [AgentEnv.roundsEnd]
    dsimp only
    split
    · exact Nat.zero_le _
    · split
      · exact Nat.succ_le_succ (Nat.zero_le _)
      · split
        · exact Nat.succ_le_succ (Nat.zero_le _)
        · split
          · exact Nat.succ_le_succ (Nat.zero_le _)
          · exact Nat.succ_le_succ (ih _)

/-- How the last round ends a session in which no file is lost. -/
theorem roundsEnd_ended {deadline : Int} : ∀ (attempts : List Nat) (r : Round ω),
    (∀ made ∈ (env.roundsEnd t check deadline attempts r).1, ¬ FileLost env t made) →
      (∃ ended code reply, (env.roundsEnd t check deadline attempts r).2 = .ok ended ∧ ended.successFlag = true ∧
        (env.roundsEnd t check deadline attempts r).1.getLast? = some ⟨some reply, some code⟩ ∧
        env.roundCode t reply = some code ∧ (check code).successFlag = true ∧ (check code).result = ended.result) ∨
      (∃ ended, (env.roundsEnd t check deadline attempts r).2 = .ok ended ∧ ended.successFlag = false) ∨
      ∃ error, (env.roundsEnd t check deadline attempts r).2 = .error (.runtimeError error) ∧
        error.status ∈ fatalApiStatuses := by
  intro attempts
  induction attempts with
  | nil => exact fun r _ => .inr (.inl ⟨_, rfl, rfl⟩)
  | cons attempt attempts ih =>
    intro r hkept
    rw [AgentEnv.roundsEnd] at hkept ⊢
    dsimp only at hkept ⊢
    split
    · exact .inr (.inl ⟨_, rfl, rfl⟩)
    · rename_i htime
      rw [if_neg htime] at hkept
      cases hinvoke : env.invokeOrRaise t.outInitial apiErrorBackoff (env.clock deadline attempt r.world).1
          (t.invocation attempt { r with world := (env.clock deadline attempt r.world).1 }) with
      | error error =>
        obtain ⟨apiError, rfl, hfatal⟩ := status_of_invokeOrRaise hinvoke
        exact .inr (.inr ⟨apiError, rfl, hfatal⟩)
      | ok left =>
        rw [hinvoke] at hkept
        dsimp only at hkept ⊢
        cases hcode : env.roundCode t left.2 with
        | none =>
          rw [hcode] at hkept
          obtain ⟨outInitial, hinitial, hlost⟩ := roundCode_eq_none_iff.mp hcode
          exact absurd ⟨left.2, outInitial, rfl, hinitial, hlost⟩ (hkept _ List.mem_cons_self)
        | some code =>
          rw [hcode] at hkept
          dsimp only at hkept ⊢
          cases hjudge : env.judge t check { r with world := (env.clock deadline attempt r.world).1 } left code with
          | inl ended =>
            obtain ⟨hflag, hcheck, hresult⟩ := judge_ended hjudge
            exact .inl ⟨ended, code, left.2, rfl, hflag, rfl, hcode, hcheck, hresult⟩
          | inr next =>
            rw [hjudge] at hkept
            rcases ih next fun made hmade => hkept made (List.mem_cons_of_mem _ hmade) with
              ⟨ended, code', reply, hend, hflag, hlast, hrest⟩ | hend
            · refine .inl ⟨ended, code', reply, hend, hflag, ?_, hrest⟩
              show (_ :: (env.roundsEnd t check deadline attempts next).1).getLast? = _
              rw [List.getLast?_cons, hlast]
              rfl
            · exact .inr hend

/-- A session that loses the file raises the error on `None`. -/
theorem roundsEnd_of_lost {deadline : Int} : ∀ (attempts : List Nat) (r : Round ω),
    (∃ made ∈ (env.roundsEnd t check deadline attempts r).1, FileLost env t made) →
      (env.roundsEnd t check deadline attempts r).2 = .error .attributeError := by
  intro attempts
  induction attempts with
  | nil => rintro r ⟨made, hmade, -⟩; cases hmade
  | cons attempt attempts ih =>
    intro r hlost
    rw [AgentEnv.roundsEnd] at hlost ⊢
    dsimp only at hlost ⊢
    split at hlost
    · obtain ⟨made, hmade, -⟩ := hlost
      cases hmade
    · rename_i htime
      rw [if_neg htime]
      cases hinvoke : env.invokeOrRaise t.outInitial apiErrorBackoff (env.clock deadline attempt r.world).1
          (t.invocation attempt { r with world := (env.clock deadline attempt r.world).1 }) with
      | error error =>
        rw [hinvoke] at hlost
        obtain ⟨made, hmade, reply, _, hreply, -⟩ := hlost
        rw [List.mem_singleton.mp hmade] at hreply
        cases hreply
      | ok left =>
        rw [hinvoke] at hlost
        dsimp only at hlost ⊢
        cases hcode : env.roundCode t left.2 with
        | none => rfl
        | some code =>
          rw [hcode] at hlost
          dsimp only at hlost ⊢
          -- this round leaves code, so that the file is lost in a later one
          have hhere : ¬ FileLost env t ⟨some left.2, some code⟩ := by
            rintro ⟨reply, outInitial, hreply, hinitial, hout⟩
            obtain rfl := Option.some.inj hreply
            rw [roundCode_eq_none_iff.mpr ⟨outInitial, hinitial, hout⟩] at hcode
            cases hcode
          cases hjudge : env.judge t check { r with world := (env.clock deadline attempt r.world).1 } left code with
          | inl ended =>
            rw [hjudge] at hlost
            obtain ⟨made, hmade, hlost⟩ := hlost
            rw [List.mem_singleton.mp hmade] at hlost
            exact absurd hlost hhere
          | inr next =>
            rw [hjudge] at hlost
            obtain ⟨made, hmade, hlost⟩ := hlost
            rcases List.mem_cons.mp hmade with rfl | hmade
            · exact absurd hlost hhere
            · exact ih next ⟨made, hmade, hlost⟩

/-- **A session ends as it should exactly if no round loses the file**, that is, finds it deleted and no code in the
reply. A good end is a result that the check has accepted in the last round, a failure, or the error of a provider
that cannot be reached. -/
theorem agentRunEnd_iff (env : AgentEnv ω) (world : ω) (t : Task) (check : String → Verdict) :
    EndsWell env t check (env.agentRunEnd world t check) ↔
      ∀ made ∈ (env.agentRunEnd world t check).1, ¬ FileLost env t made := by
  constructor
  · intro h made hmade hlost
    have hraised : (env.agentRunEnd world t check).2 = .error .attributeError :=
      roundsEnd_of_lost _ _ ⟨made, hmade, hlost⟩
    rcases h.ended with ⟨ended, _, _, hend, -⟩ | ⟨ended, hend, -⟩ | ⟨error, hend, -⟩
    · rw [hraised] at hend
      cases hend
    · rw [hraised] at hend
      cases hend
    · rw [hraised] at hend
      cases hend
  · intro hkept
    refine ⟨?_, roundsEnd_ended _ _ hkept⟩
    refine (roundsEnd_length _ _).trans ?_
    rw [List.length_range]

/-- An agent that deletes the file and says so. -/
def deletingAgent : AgentEnv Unit where
  charClass := .ascii
  compilationRetries := 5
  agentUnitTimeout := 3600
  agentInvoke world _ := (world, ⟨none, some "s", "Done.", none⟩)
  monotonic world := (world, 0)
  compile _ := (true, "")
  agentFunctions _ := []
  cleanCode code := code
  extractTargetCode reply := reply
  extractRustcImportSuggestions _ := []
  errorLines err := err

/-- **A deleted file ends the session with an error that nothing catches.** -/
theorem agentRunEnd_deleted :
    (deletingAgent.agentRunEnd () ⟨"f", "agent_function", "", "", some "fn f() \x7b\x7d"⟩ fun code =>
      ⟨true, "", code⟩).2 =
        .error .attributeError ∧
      ¬ EndsWell deletingAgent ⟨"f", "agent_function", "", "", some "fn f() \x7b\x7d"⟩ (fun code => ⟨true, "", code⟩)
        (deletingAgent.agentRunEnd () ⟨"f", "agent_function", "", "", some "fn f() \x7b\x7d"⟩ fun code =>
          ⟨true, "", code⟩) := by
  have hraised : (deletingAgent.agentRunEnd () ⟨"f", "agent_function", "", "", some "fn f() \x7b\x7d"⟩
      fun code => ⟨true, "", code⟩).2 = .error .attributeError := by
    refine roundsEnd_of_lost _ _ ⟨⟨some ⟨none, some "s", "Done.", none⟩, none⟩, List.mem_cons_self, ?_⟩
    exact ⟨_, _, rfl, rfl, rfl, fun h => absurd h.1 (by decide)⟩
  refine ⟨hraised, fun h => ?_⟩
  rcases h.ended with ⟨ended, _, _, hend, -⟩ | ⟨ended, hend, -⟩ | ⟨error, hend, -⟩
  · rw [hraised] at hend
    cases hend
  · rw [hraised] at hend
    cases hend
  · rw [hraised] at hend
    cases hend

end Assure
