import Mathlib.Algebra.BigOperators.Group.List.Basic
import Mathlib.Algebra.GroupWithZero.Nat
import Mathlib.Algebra.Order.Field.Rat
import Mathlib.Data.List.Dedup
import Assure.Library.Collections
import Assure.Library.Loop
import Assure.Performance.Fixes

/-!
# A check of the performance

`runPerformanceCheck` compiles the generated entry, runs it five times and records the average. What the compiler
answers, how a run ends and what a user leaves in the file are events, and the check is a machine that takes one event
after the other: it compiles until there is a binary, with a fix after each failure, and begins the five runs again after
an edit.

A check that returns has recorded five runs in a row of one binary, made from the file as it is (`check_returned`), and
one that raises has recorded nothing (`check_raised`). Whatever the compiler answers, a check goes on only as long as its
user does, if no text names an MD5 library (`check_events_le`). No stage is compared with another one:
`getPerformanceMetricsContext` never names a previous stage, so the check is always passed.

The check is modelled from where the entry has been generated and its arguments are split. Averages
are exact rational numbers, where the source adds floats. A compilation that runs into its limit of
time raises in the source, as a file operation does that fails; neither is an event here. What the
user writes is any text.
-/

namespace Assure

open Assure.Library

/-! ## What a fix leaves to be fixed -/

section Fixes

variable {chars : CharClass} {caseClass : CaseClass}

/-- A text without the names of MD5 libraries. -/
def Md5Free (text : List Char) : Prop := ∀ marker ∈ md5Markers, ¬ marker.toList <:+: text

/-- A text without marks and without `libc::stderr`. -/
def sanitizedText (chars : CharClass) (caseClass : CaseClass) (text : List Char) : List Char :=
  sanitizeRustLibcStderr chars (stripModelCodeMarkers chars caseClass text)

/-- No mark of an MD5 include goes over a line break. -/
theorem newline_notMem_md5Markers : ∀ marker ∈ md5Markers, '\n' ∉ marker.toList := by decide

/-- Stripping markers brings no MD5 include in. -/
theorem md5Free_strip {text : List Char} (h : Md5Free text) : Md5Free (stripModelCodeMarkers chars caseClass text) := by
  intro marker hmarker hin
  have hline := newline_notMem_md5Markers marker hmarker
  have hfence := infix_of_infix_cutMatches (Pattern.atLineStarts _) hline 0 none _ hin
  exact h marker hmarker (infix_of_infix_cutMatches (Pattern.atLineStarts _) hline 0 none _ hfence)

set_option maxRecDepth 4000 in
/-- The names of the libraries are not in the extern block, do not begin within the name that stands for
`libc::stderr`, and have no letter `P`. -/
theorem md5Markers_apart : ∀ marker ∈ md5Markers, ¬ marker.toList <:+: stderrExternBlock ∧ 'P' ∉ marker.toList ∧
    ∀ v ∈ "PERFORMANCE_STDERR".toList.tails, v ≠ [] → ¬ v <+: marker.toList ∧ ¬ marker.toList <+: v := by
  decide

/-- **Sanitising names no library** that the text does not name. -/
theorem md5Free_sanitizedText {text : List Char} (h : Md5Free text) : Md5Free (sanitizedText chars caseClass text) := by
  intro marker hmarker hin
  have hstripped : ¬ marker.toList <:+: stripModelCodeMarkers chars caseClass text := md5Free_strip h marker hmarker
  by_cases hstderr : libcStderr <:+: stripModelCodeMarkers chars caseClass text
  · obtain ⟨hblock, hletter, happart⟩ := md5Markers_apart marker hmarker
    have hreplaced := infix_of_infix_sanitizeRustLibcStderr (newline_notMem_md5Markers marker hmarker) hblock hstderr hin
    exact hstripped (infix_of_infix_replaceText rfl hletter happart 0 _ hreplaced)
  · rw [sanitizedText, sanitizeRustLibcStderr_without hstderr] at hin
    exact hstripped hin

/-- A word without line breaks in a text with includes in front. -/
theorem infix_topOf_append {word : List Char} (hword : '\n' ∉ word) {text : List Char} :
    ∀ {lines : List String}, word <:+: topOf lines ++ text →
      (∃ line ∈ lines, word <:+: line.toList) ∨ word <:+: text
  | [], h => .inr h
  | line :: lines, h => by
    rw [topOf_cons, List.append_assoc, List.cons_append, infix_append_cons_iff hword] at h
    rcases h with h | h
    · exact .inl ⟨line, List.mem_cons_self, h⟩
    · rcases infix_topOf_append hword h with ⟨line', hline', h⟩ | h
      · exact .inl ⟨line', List.mem_cons_of_mem _ hline', h⟩
      · exact .inr h

/-- Neither do the includes that the fixes put on top. -/
theorem md5Free_topOf {lines : List String} (hlines : lines ⊆ fixIncludes) {text : List Char} (h : Md5Free text) :
    Md5Free (topOf lines ++ text) := by
  intro marker hmarker hin
  rcases infix_topOf_append (newline_notMem_md5Markers marker hmarker) hin with ⟨line, hline, hin⟩ | hin
  · exact (by decide : ∀ marker ∈ md5Markers, ∀ line ∈ fixIncludes, ¬ marker.toList <:+: line.toList) marker hmarker
      line (hlines hline) hin
  · exact h marker hmarker hin

/-- Nor do they bring the stream of libc in. -/
theorem not_libcStderr_topOf {lines : List String} (hlines : lines ⊆ fixIncludes) {text : List Char}
    (h : ¬ libcStderr <:+: text) : ¬ libcStderr <:+: topOf lines ++ text := by
  intro hin
  rcases infix_topOf_append newline_notMem_libcStderr hin with ⟨line, hline, hin⟩ | hin
  · exact (by decide : ∀ line ∈ fixIncludes, ¬ libcStderr <:+: line.toList) line (hlines hline) hin
  · exact h hin

/-- **A fix of a text without MD5 libraries**: it is sanitised, and includes are put in front. -/
theorem autoFixedCode_of_md5Free {text : List Char} (h : Md5Free (sanitizedText chars caseClass text))
    (performancePath : List Char) (stderr : String) : ∃ lines ⊆ fixIncludes,
      (∀ line ∈ lines, line.toList ∉ existingIncludes chars (sanitizedText chars caseClass text)) ∧
      autoFixedCode chars caseClass performancePath stderr text = topOf lines ++ sanitizedText chars caseClass text := by
  have hfixed : fixedText chars caseClass text = sanitizedText chars caseClass text := by
    have hnone : definitionToReplace chars (sanitizedText chars caseClass text) = [] :=
      if_neg fun hmarker => by
        obtain ⟨marker, hmem, hin⟩ := hmarker
        exact h marker hmem hin
    show (if definitionToReplace chars (sanitizedText chars caseClass text) = [] then _ else _) = _
    rw [if_pos hnone]
    rfl
  obtain ⟨lines, hlines, hnew, heq⟩ := @autoFixedCode_eq chars caseClass performancePath stderr text
  rw [hfixed] at hnew heq
  exact ⟨lines, hlines, hnew, heq⟩

/-- The colons and backticks. -/
def marks (text : List Char) : Nat := text.count ':' + text.count '\x60'

/-- The includes of the table that are not found. -/
def missingIncludes (chars : CharClass) (text : List Char) : List String :=
  fixIncludes.filter fun line => !(existingIncludes chars text).contains line.toList

/-- **How often a text can still be fixed.** -/
def autoFixBound (chars : CharClass) (caseClass : CaseClass) (text : List Char) : Nat :=
  if libcStderr <:+: text then (marks (sanitizedText chars caseClass text) + 1) * 10
  else marks text * 10 + (missingIncludes chars text).length

/-- The includes on top hold none of the marks that a strip removes, so the count of these stays. -/
theorem marks_topOf {lines : List String} (hlines : lines ⊆ fixIncludes) (text : List Char) :
    marks (topOf lines ++ text) = marks text := by
  have hnone : ∀ c ∈ topOf lines, c ≠ ':' ∧ c ≠ '\x60' := by
    intro c hc
    obtain ⟨line, hline, hc⟩ := List.mem_flatMap.mp hc
    have hall : (fixIncludes.all fun line => (line.toList ++ ['\n']).all fun c => c != ':' && c != '\x60') = true := rfl
    have hline := List.all_eq_true.mp (List.all_eq_true.mp hall line (hlines hline)) c hc
    rw [Bool.and_eq_true, bne_iff_ne, bne_iff_ne] at hline
    exact hline
  have hcolon : (topOf lines).count ':' = 0 := List.count_eq_zero.mpr fun h => (hnone _ h).1 rfl
  have htick : (topOf lines).count '\x60' = 0 := List.count_eq_zero.mpr fun h => (hnone _ h).2 rfl
  rw [marks, List.count_append, List.count_append, hcolon, htick, Nat.zero_add, Nat.zero_add]
  rfl

/-- There are nine includes that a fix can add, so at most nine are ever missing. -/
theorem missingIncludes_length_le (text : List Char) : (missingIncludes chars text).length ≤ 9 :=
  List.length_filter_le _ _

/-- **Each fix that changes the text makes the bound smaller.** -/
theorem autoFix_decreases {text text' : List Char} (h : Md5Free (sanitizedText chars caseClass text))
    {performancePath : List Char} {stderr : String}
    (hfix : autoFixPerformanceCompileError chars caseClass performancePath stderr text = some text') :
    Md5Free (sanitizedText chars caseClass text') ∧
      autoFixBound chars caseClass text' < autoFixBound chars caseClass text := by
  obtain ⟨lines, hlines, hnew, heq⟩ := autoFixedCode_of_md5Free h performancePath stderr
  rw [autoFixPerformanceCompileError, heq] at hfix
  split at hfix
  · cases hfix
  · rename_i hchanged
    obtain rfl := Option.some.inj hfix
    have hno : ¬ libcStderr <:+: sanitizedText chars caseClass text := not_infix_sanitizeRustLibcStderr _
    have hno' := not_libcStderr_topOf hlines hno
    refine ⟨?_, ?_⟩
    · exact md5Free_sanitizedText (md5Free_topOf hlines h)
    · have hmissing := @missingIncludes_length_le chars (topOf lines ++ sanitizedText chars caseClass text)
      rw [autoFixBound, if_neg hno', marks_topOf hlines, autoFixBound]
      by_cases hin : libcStderr <:+: text
      · rw [if_pos hin]
        omega
      · rw [if_neg hin]
        have hsanitized : sanitizedText chars caseClass text = stripModelCodeMarkers chars caseClass text :=
          sanitizeRustLibcStderr_without (not_infix_strip hin)
        rcases @strip_eq_or_lt chars caseClass text with hsame | hlt
        · rw [hsanitized, hsame] at hchanged hnew ⊢
          -- nothing was cut out, so an include is new
          have hne : lines ≠ [] := fun hnil => hchanged (by rw [hnil]; rfl)
          obtain ⟨line, hline⟩ := List.exists_mem_of_ne_nil lines hne
          have hfewer : (missingIncludes chars (topOf lines ++ text)).length < (missingIncludes chars text).length := by
            rw [missingIncludes, existingIncludes_topOf hlines]
            have hsub : ((missingIncludes chars text).filter fun line =>
                !(lines.map String.toList).contains line.toList).length < (missingIncludes chars text).length := by
              apply List.length_filter_lt_length_iff_exists.mpr
              refine ⟨line, List.mem_filter.mpr ⟨hlines hline, ?_⟩, ?_⟩
              · rw [Bool.not_eq_true', List.contains_eq_mem, decide_eq_false_iff_not]
                exact hnew line hline
              · rw [Bool.not_eq_true', Bool.not_eq_false, List.contains_eq_mem, decide_eq_true_iff]
                exact List.mem_map_of_mem hline
            refine lt_of_eq_of_lt ?_ hsub
            rw [missingIncludes, List.filter_filter]
            simp only [List.contains_eq_mem, List.mem_append, Bool.decide_or, Bool.not_or]
          omega
        · rw [hsanitized] at hmissing ⊢
          have hlt : marks (stripModelCodeMarkers chars caseClass text) < marks text := hlt
          omega

/-- Cases of letters in ASCII. -/
def CaseClass.ascii : CaseClass := ⟨fun c d => c.toLower == d.toLower, fun _ _ _ _ => rfl⟩

end Fixes

/-! ## The metrics -/

/-- What is used of a run: whether it returned 0, and what was found in its output. -/
structure RunResult where
  succeeded : Bool
  elapsedMs : Option Rat
  checksum : Option String

/-- An entry of `runLogs`. -/
structure RunLog where
  runIndex : Nat
  elapsedMs : Rat
  checksum : Option String
  deriving DecidableEq

/-- A record of a stage, with the retries in `ρ`. -/
structure StageRecord (ρ : Type) where
  averageElapsedMs : Option Rat
  performanceCheckPassed : Option Bool
  runs : List RunLog
  checksum : Option String
  correctnessCheckPassed : Option Bool
  expectedChecksum : Option String
  previousStageBaselineMs : Option Rat
  perfRetry : Option ρ
  deriving DecidableEq

section Metrics

variable {ρ : Type}

/-- The key of this stage and of the previous one: none. -/
def getPerformanceMetricsContext (performancePath : List Char) : String × Option String :=
  (String.ofList (performancePath.rtakeWhile (· ≠ '/')), none)

/-- The record of the previous stage. -/
def previousRecord (previousKey : Option String) (metrics : Dict String (StageRecord ρ)) : Option (StageRecord ρ) :=
  (previousKey.filter (· ≠ "")).bind metrics.get?

/-- With no threshold given, 100 ms. -/
def isPerformanceWithinStageThreshold (thresholdPct : Option Rat) (previousKey : Option String)
    (averageElapsedMs : Rat) (metrics : Dict String (StageRecord ρ)) : Bool :=
  match (previousRecord previousKey metrics).bind (·.averageElapsedMs) with
  | none => true
  | some previousElapsedMs =>
    match thresholdPct with
    | some thresholdPct => averageElapsedMs ≤ previousElapsedMs * (1 + thresholdPct / 100)
    | none => averageElapsedMs ≤ previousElapsedMs + 100

def loadBaselineChecksum (previousKey : Option String) (metrics : Dict String (StageRecord ρ)) : Option String :=
  (previousRecord previousKey metrics).bind (·.checksum)

/-- The checksum of all runs, if they all have one and the same. -/
def canonicalChecksum (runLogs : List RunLog) : Option String :=
  let nonNullChecksums := runLogs.filterMap (·.checksum)
  if nonNullChecksums.dedup.length = 1 ∧ nonNullChecksums.length = runLogs.length then nonNullChecksums.head? else none

/-- The first checksum is the reference for the later ones. -/
def correctnessCheck (canonical expected : Option String) : Option Bool :=
  canonical.map fun checksum =>
    match expected with
    | none => true
    | some expected => checksum == expected

def averageElapsed (runLogs : List RunLog) : Rat := (runLogs.map (·.elapsedMs)).sum / runLogs.length

/-- **`recordPerformanceMetric`**: the metrics with the record of this stage, and whether it has passed. -/
def recordPerformanceMetric (thresholdPct : Option Rat) (performancePath : List Char)
    (metrics : Dict String (StageRecord ρ)) (runLogs : List RunLog) (checksum : Option String)
    (correctnessCheckPassed : Option Bool) (expectedChecksum : Option String) : Dict String (StageRecord ρ) × Bool :=
  let (currentKey, previousKey) := getPerformanceMetricsContext performancePath
  let passed := isPerformanceWithinStageThreshold thresholdPct previousKey (averageElapsed runLogs) metrics
  (metrics.insert currentKey
    { averageElapsedMs := some (averageElapsed runLogs)
      performanceCheckPassed := some passed
      runs := runLogs
      checksum := checksum
      correctnessCheckPassed := correctnessCheckPassed
      expectedChecksum := expectedChecksum
      previousStageBaselineMs := (previousRecord previousKey metrics).bind (·.averageElapsedMs)
      perfRetry := (metrics.get? currentKey).bind (·.perfRetry) }, passed)

end Metrics

/-! ## The check -/

/-- What an edit is asked for. -/
inductive Failure
  | run
  | correctness (runLogs : List RunLog)
  deriving DecidableEq

/-- Where a check is. -/
inductive CheckPhase
  | compiling (manualFixOffered : Bool)
  | offeringFix
  | running (runLogs : List RunLog)
  | offeringRecompile (failure : Failure)
  | recompiling (failure : Failure)
  | returned (passed : Bool)
  | raised
  deriving DecidableEq

/-- **A check**: the generated file, what the binary was made from, and the recorded metrics. -/
structure PerformanceCheck (ρ : Type) where
  performanceFile : List Char
  binary : Option (List Char)
  metrics : Dict String (StageRecord ρ)
  phase : CheckPhase

/-- What happens to a check: the compiler has answered, with its errors if it has failed; a user has left a text in the
file, or there was no answer; a run has ended. -/
inductive CheckEvent
  | compiled (stderr : Option String)
  | answered (edited : Option (List Char))
  | ran (result : RunResult)

section Check

variable {ρ : Type} (chars : CharClass) (caseClass : CaseClass) (thresholdPct : Option Rat) (performancePath : List Char)

/-- The record after five runs. -/
def finishCheck (s : PerformanceCheck ρ) (runLogs : List RunLog) : PerformanceCheck ρ :=
  let expectedChecksum := loadBaselineChecksum (getPerformanceMetricsContext performancePath).2 s.metrics
  let canonical := canonicalChecksum runLogs
  let (metrics, passed) := recordPerformanceMetric thresholdPct performancePath s.metrics runLogs canonical
    (correctnessCheck canonical expectedChecksum) expectedChecksum
  { s with metrics := metrics, phase := .returned passed }

/-- After a run that has succeeded. -/
def afterRun (s : PerformanceCheck ρ) (runLogs : List RunLog) : PerformanceCheck ρ :=
  if runLogs.length < 5 then { s with phase := .running runLogs }
  else
    let expectedChecksum := loadBaselineChecksum (getPerformanceMetricsContext performancePath).2 s.metrics
    if correctnessCheck (canonicalChecksum runLogs) expectedChecksum = some false then
      { s with phase := .offeringRecompile (.correctness runLogs) }
    else finishCheck thresholdPct performancePath s runLogs

/-- **One event of a check.** -/
def checkStep (s : PerformanceCheck ρ) : CheckEvent → Option (PerformanceCheck ρ)
  | .compiled stderr? =>
    match s.phase, stderr? with
    | .compiling _, none | .recompiling _, none =>
      some { s with binary := some s.performanceFile, phase := .running [] }
    | .compiling manualFixOffered, some stderr =>
      match autoFixPerformanceCompileError chars caseClass performancePath stderr s.performanceFile with
      | some updatedCode => some { s with performanceFile := updatedCode }
      | none => some { s with phase := if manualFixOffered then .raised else .offeringFix }
    | .recompiling failure, some _ => some { s with phase := .offeringRecompile failure }
    | _, _ => none
  | .answered edited? =>
    match s.phase, edited? with
    | .offeringFix, some edited => some { s with performanceFile := edited, phase := .compiling true }
    | .offeringFix, none => some { s with phase := .raised }
    | .offeringRecompile failure, some edited =>
      some { s with performanceFile := edited, phase := .recompiling failure }
    | .offeringRecompile .run, none => some { s with phase := .raised }
    | .offeringRecompile (.correctness runLogs), none => some (finishCheck thresholdPct performancePath s runLogs)
    | _, _ => none
  | .ran result =>
    match s.phase with
    | .running runLogs =>
      match result.succeeded, result.elapsedMs with
      | true, some elapsedMs =>
        some (afterRun thresholdPct performancePath s
          (runLogs ++ [⟨runLogs.length + 1, elapsedMs, result.checksum⟩]))
      | _, _ => some { s with phase := .offeringRecompile .run }
    | _ => none

/-- **A run of a check**, from the generated file on. -/
def checkRun (s : PerformanceCheck ρ) (events : List CheckEvent) : Option (PerformanceCheck ρ) :=
  events.foldlM (checkStep chars caseClass thresholdPct performancePath) s

/-- A check begins with the generated file. -/
def checkStart (finalCode : List Char) (metrics : Dict String (StageRecord ρ)) : PerformanceCheck ρ :=
  ⟨finalCode, none, metrics, .compiling false⟩

/-! ## What one event does -/

/-- The cases of `checkStep`. -/
inductive CheckMove : PerformanceCheck ρ → CheckEvent → PerformanceCheck ρ → Prop
  | built {s : PerformanceCheck ρ}
    (hphase : (∃ offered, s.phase = .compiling offered) ∨ ∃ failure, s.phase = .recompiling failure) :
    CheckMove s (.compiled none) { s with binary := some s.performanceFile, phase := .running [] }
  | autoFixed {s : PerformanceCheck ρ} {offered : Bool} {stderr : String} {updatedCode : List Char}
    (hphase : s.phase = .compiling offered)
    (hfix : autoFixPerformanceCompileError chars caseClass performancePath stderr s.performanceFile = some updatedCode) :
    CheckMove s (.compiled (some stderr)) { s with performanceFile := updatedCode }
  | notFixed {s : PerformanceCheck ρ} {offered : Bool} {stderr : String} (hphase : s.phase = .compiling offered)
    (hfix : autoFixPerformanceCompileError chars caseClass performancePath stderr s.performanceFile = none) :
    CheckMove s (.compiled (some stderr)) { s with phase := if offered then .raised else .offeringFix }
  | stillBroken {s : PerformanceCheck ρ} {failure : Failure} {stderr : String}
    (hphase : s.phase = .recompiling failure) :
    CheckMove s (.compiled (some stderr)) { s with phase := .offeringRecompile failure }
  | edited {s : PerformanceCheck ρ} {text : List Char} (hphase : s.phase = .offeringFix) :
    CheckMove s (.answered (some text)) { s with performanceFile := text, phase := .compiling true }
  | editedAgain {s : PerformanceCheck ρ} {failure : Failure} {text : List Char}
    (hphase : s.phase = .offeringRecompile failure) :
    CheckMove s (.answered (some text)) { s with performanceFile := text, phase := .recompiling failure }
  | unanswered {s : PerformanceCheck ρ} (hphase : s.phase = .offeringFix ∨ s.phase = .offeringRecompile .run) :
    CheckMove s (.answered none) { s with phase := .raised }
  | mismatchKept {s : PerformanceCheck ρ} {runLogs : List RunLog}
    (hphase : s.phase = .offeringRecompile (.correctness runLogs)) :
    CheckMove s (.answered none) (finishCheck thresholdPct performancePath s runLogs)
  | measured {s : PerformanceCheck ρ} {runLogs : List RunLog} {result : RunResult} {elapsedMs : Rat}
    (hphase : s.phase = .running runLogs) (hsucceeded : result.succeeded = true)
    (helapsed : result.elapsedMs = some elapsedMs) :
    CheckMove s (.ran result) (afterRun thresholdPct performancePath s
      (runLogs ++ [⟨runLogs.length + 1, elapsedMs, result.checksum⟩]))
  | runFailed {s : PerformanceCheck ρ} {runLogs : List RunLog} {result : RunResult}
    (hphase : s.phase = .running runLogs) (hfailed : result.succeeded = true → result.elapsedMs = none) :
    CheckMove s (.ran result) { s with phase := .offeringRecompile .run }

variable {chars caseClass thresholdPct performancePath}

/-- Every step of the check is one of the moves; what follows is proved about moves and no longer
looks into the step. -/
theorem checkMove_of_step {s s' : PerformanceCheck ρ} {event : CheckEvent}
    (h : checkStep chars caseClass thresholdPct performancePath s event = some s') :
    CheckMove chars caseClass thresholdPct performancePath s event s' := by
  cases event with
  | compiled stderr? =>
    simp only [checkStep] at h
    split at h
    · rename_i hphase
      obtain rfl := Option.some.inj h
      exact .built (.inl ⟨_, hphase⟩)
    · rename_i hphase
      obtain rfl := Option.some.inj h
      exact .built (.inr ⟨_, hphase⟩)
    · rename_i hphase
      split at h
      · rename_i hfix
        obtain rfl := Option.some.inj h
        exact .autoFixed hphase hfix
      · rename_i hfix
        obtain rfl := Option.some.inj h
        exact .notFixed hphase hfix
    · rename_i hphase
      obtain rfl := Option.some.inj h
      exact .stillBroken hphase
    · cases h
  | answered edited? =>
    simp only [checkStep] at h
    split at h <;> try obtain rfl := Option.some.inj h
    · exact .edited ‹_›
    · exact .unanswered (.inl ‹_›)
    · exact .editedAgain ‹_›
    · exact .unanswered (.inr ‹_›)
    · exact .mismatchKept ‹_›
    · cases h
  | ran result =>
    simp only [checkStep] at h
    split at h
    · rename_i hphase
      split at h
      · rename_i hsucceeded helapsed
        obtain rfl := Option.some.inj h
        exact .measured hphase hsucceeded helapsed
      · rename_i hfailed
        obtain rfl := Option.some.inj h
        refine .runFailed hphase fun hsucceeded => ?_
        cases helapsed : result.elapsedMs with
        | none => rfl
        | some elapsedMs => exact (hfailed elapsedMs hsucceeded helapsed).elim
    · cases h

/-! ## No stage is compared -/

/-- The record of five runs: it has passed, and there is nothing to compare it with. -/
def stageRecord (performancePath : List Char) (metrics : Dict String (StageRecord ρ)) (runLogs : List RunLog) :
    StageRecord ρ :=
  { averageElapsedMs := some (averageElapsed runLogs)
    performanceCheckPassed := some true
    runs := runLogs
    checksum := canonicalChecksum runLogs
    correctnessCheckPassed := (canonicalChecksum runLogs).map fun _ => true
    expectedChecksum := none
    previousStageBaselineMs := none
    perfRetry := (metrics.get? (getPerformanceMetricsContext performancePath).1).bind (·.perfRetry) }

/-- What the end of the check writes: one record of the stage, under the check's own name. -/
theorem finishCheck_eq (s : PerformanceCheck ρ) (runLogs : List RunLog) :
    finishCheck thresholdPct performancePath s runLogs =
      { s with
        metrics := s.metrics.insert (getPerformanceMetricsContext performancePath).1
          (stageRecord performancePath s.metrics runLogs)
        phase := .returned true } :=
  rfl

/-- Without a checksum of its own a run is never found wrong. -/
theorem correctnessCheck_none_ne (canonical : Option String) : correctnessCheck canonical none ≠ some false := by
  cases canonical <;> simp [correctnessCheck]

/-- After a run the check goes on to the next one, or ends after the fifth. -/
theorem afterRun_eq (s : PerformanceCheck ρ) (runLogs : List RunLog) :
    afterRun thresholdPct performancePath s runLogs =
      if runLogs.length < 5 then { s with phase := .running runLogs }
      else finishCheck thresholdPct performancePath s runLogs := by
  have hnone : correctnessCheck (canonicalChecksum runLogs)
      (loadBaselineChecksum (getPerformanceMetricsContext performancePath).2 s.metrics) ≠ some false :=
    correctnessCheck_none_ne _
  rw [afterRun]
  split
  · rfl
  · rw [if_neg hnone]

/-- **The checksum of a stage** is the one that all runs have. -/
theorem canonicalChecksum_eq_some_iff {runLogs : List RunLog} {checksum : String} :
    canonicalChecksum runLogs = some checksum ↔ runLogs ≠ [] ∧ ∀ log ∈ runLogs, log.checksum = some checksum := by
  constructor
  · intro h
    simp only [canonicalChecksum] at h
    split at h
    · rename_i hone
      obtain ⟨only, honly⟩ := List.length_eq_one_iff.mp hone.1
      have hall : ∀ found ∈ runLogs.filterMap (·.checksum), found = only := fun found hfound => by
        have hmem := List.mem_dedup.mpr hfound
        rwa [honly, List.mem_singleton] at hmem
      have hhead := List.mem_of_mem_head? h
      refine ⟨List.ne_nil_of_mem (List.mem_filterMap.mp hhead).choose_spec.1, fun log hlog => ?_⟩
      obtain ⟨found, hfound⟩ := Option.isSome_iff_exists.mp (List.filterMap_length_eq_length.mp hone.2 log hlog)
      rw [hfound, hall checksum hhead, hall found (List.mem_filterMap.mpr ⟨log, hlog, hfound⟩)]
    · cases h
  · rintro ⟨hne, hall⟩
    have hsame : runLogs.filterMap (·.checksum) = List.replicate runLogs.length checksum := by
      refine List.eq_replicate_iff.mpr ⟨?_, fun found hfound => ?_⟩
      · exact List.filterMap_length_eq_length.mpr fun log hlog => by rw [hall log hlog]; rfl
      · obtain ⟨log, hlog, hfound⟩ := List.mem_filterMap.mp hfound
        exact Option.some.inj (hfound.symm.trans (hall log hlog))
    have hpos : runLogs.length ≠ 0 := fun hzero => hne (List.length_eq_zero_iff.mp hzero)
    simp only [canonicalChecksum, hsame]
    rw [List.replicate_dedup hpos, List.length_replicate, if_pos ⟨rfl, rfl⟩, List.head?_replicate, if_neg hpos]

/-! ## A run of a check -/

/-- The logs are those of the runs, all of which have succeeded. -/
structure LogsOf (runs : List RunResult) (runLogs : List RunLog) : Prop where
  succeeded : ∀ run ∈ runs, run.succeeded = true
  numbered : runLogs.map (·.runIndex) = List.range' 1 runs.length
  elapsed : runLogs.map (some ·.elapsedMs) = runs.map (·.elapsedMs)
  checksums : runLogs.map (·.checksum) = runs.map (·.checksum)

/-- There is one log for each run. -/
theorem LogsOf.length {runs : List RunResult} {runLogs : List RunLog} (h : LogsOf runs runLogs) :
    runLogs.length = runs.length := by
  simpa using congrArg List.length h.checksums

/-- A run that succeeded in some time adds its log, numbered after those before. -/
theorem LogsOf.snoc {runs : List RunResult} {runLogs : List RunLog} (h : LogsOf runs runLogs) {run : RunResult}
    {elapsedMs : Rat} (hsucceeded : run.succeeded = true) (helapsed : run.elapsedMs = some elapsedMs) :
    LogsOf (runs ++ [run]) (runLogs ++ [⟨runLogs.length + 1, elapsedMs, run.checksum⟩]) where
  succeeded := by
    intro later hlater
    rcases List.mem_append.mp hlater with hlater | hlater
    · exact h.succeeded later hlater
    · rw [List.mem_singleton.mp hlater, hsucceeded]
  numbered := by
    rw [List.map_append, h.numbered, List.length_append, h.length, List.length_singleton, List.range'_concat]
    simp [Nat.add_comm]
  elapsed := by simp [h.elapsed, helapsed]
  checksums := by simp [h.checksums]

/-- The texts that a user has left. -/
def edits (events : List CheckEvent) : List (List Char) :=
  events.filterMap fun
    | .answered edited => edited
    | _ => none

/-- The edits of a history are those of its parts. -/
@[simp] theorem edits_append (events later : List CheckEvent) : edits (events ++ later) = edits events ++ edits later :=
  List.filterMap_append

/-- A compile edits nothing. -/
@[simp] theorem edits_compiled (stderr : Option String) : edits [.compiled stderr] = [] := rfl

/-- A run edits nothing. -/
@[simp] theorem edits_ran (result : RunResult) : edits [.ran result] = [] := rfl

/-- An answer of the model edits the code if it came with one. -/
@[simp] theorem edits_answered (edited : Option (List Char)) : edits [.answered edited] = edited.toList := by
  cases edited <;> rfl

/-- **Measured**: the file was compiled, and then there were only the runs of these logs. -/
structure Measured (past : List CheckEvent) (s : PerformanceCheck ρ) (runLogs : List RunLog) : Prop where
  history : ∃ before runs, past = before ++ .compiled none :: runs.map .ran ∧ LogsOf runs runLogs
  fresh : s.binary = some s.performanceFile

variable (chars caseClass performancePath) in
/-- **Given up**: nobody answered, or the one edit did not help and there is no fix. -/
def GivenUp (past : List CheckEvent) (performanceFile : List Char) : Prop :=
  (∃ before, past = before ++ [.answered none]) ∨
    ∃ before stderr, past = before ++ [.compiled (some stderr)] ∧ (edits before).length = 1 ∧
      autoFixPerformanceCompileError chars caseClass performancePath stderr performanceFile = none

variable (chars caseClass performancePath) in
/-- **What the events so far say of a check**, with the metrics it began with. -/
def CheckInv (metrics : Dict String (StageRecord ρ)) (past : List CheckEvent) (s : PerformanceCheck ρ) : Prop :=
  match s.phase with
  | .compiling offered => s.metrics = metrics ∧ (edits past).length = offered.toNat
  | .offeringFix => s.metrics = metrics ∧ edits past = []
  | .running runLogs => s.metrics = metrics ∧ runLogs.length < 5 ∧ Measured past s runLogs
  | .offeringRecompile failure | .recompiling failure => s.metrics = metrics ∧ failure = .run
  | .returned passed =>
    passed = true ∧ ∃ runLogs, runLogs.length = 5 ∧ Measured past s runLogs ∧
      s.metrics = metrics.insert (getPerformanceMetricsContext performancePath).1
        (stageRecord performancePath metrics runLogs)
  | .raised => s.metrics = metrics ∧ GivenUp chars caseClass performancePath past s.performanceFile

/-- The invariant holds before the first event. -/
theorem checkInv_start (finalCode : List Char) (metrics : Dict String (StageRecord ρ)) :
    CheckInv chars caseClass performancePath metrics [] (checkStart finalCode metrics) := ⟨rfl, rfl⟩

/-- Every event keeps the invariant. -/
theorem checkInv_step {metrics : Dict String (StageRecord ρ)} {past : List CheckEvent} {s s' : PerformanceCheck ρ}
    {event : CheckEvent} (hInv : CheckInv chars caseClass performancePath metrics past s)
    (h : checkStep chars caseClass thresholdPct performancePath s event = some s') :
    CheckInv chars caseClass performancePath metrics (past ++ [event]) s' := by
  have hmetrics : (∀ passed, s.phase ≠ .returned passed) → s.metrics = metrics := fun hopen => by
    cases hphase : s.phase with
    | returned passed => exact (hopen passed hphase).elim
    | _ => simp only [CheckInv, hphase] at hInv; exact hInv.1
  cases checkMove_of_step h with
  | built hphase =>
    refine ⟨hmetrics fun passed hreturned => ?_, by decide, ⟨past, [], by simp, ?_⟩, rfl⟩
    · rcases hphase with ⟨_, hphase⟩ | ⟨_, hphase⟩ <;> simp [hphase] at hreturned
    · exact ⟨by simp, rfl, rfl, rfl⟩
  | autoFixed hphase hfix =>
    simp only [CheckInv, hphase] at hInv ⊢
    exact ⟨hInv.1, by simpa using hInv.2⟩
  | @notFixed offered stderr hphase hfix =>
    simp only [CheckInv, hphase] at hInv
    cases offered with
    | false => exact ⟨hInv.1, by simpa using hInv.2⟩
    | true => exact ⟨hInv.1, .inr ⟨past, stderr, rfl, hInv.2, hfix⟩⟩
  | stillBroken hphase =>
    simp only [CheckInv, hphase] at hInv
    exact hInv
  | edited hphase =>
    simp only [CheckInv, hphase] at hInv
    exact ⟨hInv.1, by simp [hInv.2]⟩
  | editedAgain hphase =>
    simp only [CheckInv, hphase] at hInv
    exact hInv
  | unanswered hphase =>
    refine ⟨hmetrics fun passed hreturned => ?_, .inl ⟨past, rfl⟩⟩
    rcases hphase with hphase | hphase <;> simp [hphase] at hreturned
  | mismatchKept hphase =>
    simp only [CheckInv, hphase] at hInv
    cases hInv.2
  | @measured runLogs result elapsedMs hphase hsucceeded helapsed =>
    simp only [CheckInv, hphase] at hInv
    obtain ⟨hsame, hlt, ⟨before, runs, rfl, hlogs⟩, hfresh⟩ := hInv
    have hnow : Measured (before ++ .compiled none :: runs.map .ran ++ [.ran result]) s
        (runLogs ++ [⟨runLogs.length + 1, elapsedMs, result.checksum⟩]) :=
      ⟨⟨before, runs ++ [result], by simp, hlogs.snoc hsucceeded helapsed⟩, hfresh⟩
    rw [afterRun_eq]
    split
    · rename_i hfew
      exact ⟨hsame, hfew, hnow.history, hfresh⟩
    · rename_i hmany
      rw [List.length_append, List.length_singleton] at hmany
      rw [finishCheck_eq, hsame]
      refine ⟨rfl, _, ?_, ⟨hnow.history, hfresh⟩, rfl⟩
      rw [List.length_append, List.length_singleton]
      omega
  | runFailed hphase _ =>
    simp only [CheckInv, hphase] at hInv
    exact ⟨hInv.1, rfl⟩

/-- **The invariant of a check.** -/
theorem checkInv_run {finalCode : List Char} {metrics : Dict String (StageRecord ρ)} {events : List CheckEvent}
    {s : PerformanceCheck ρ}
    (h : checkRun chars caseClass thresholdPct performancePath (checkStart finalCode metrics) events = some s) :
    CheckInv chars caseClass performancePath metrics events s := by
  have hstart := @checkInv_start _ chars caseClass performancePath finalCode metrics
  have hrun := foldlM_history (CheckInv chars caseClass performancePath metrics)
    (fun _ _ _ _ hInv hstep => checkInv_step hInv hstep) hstart h
  rwa [List.nil_append] at hrun

/-- **A check that returns** has passed. Its last events are a compilation of the file as it is and five runs of that
binary, none of which failed, and the record of this stage is theirs: their average, and the checksum that all five
have. -/
theorem check_returned {finalCode : List Char} {metrics : Dict String (StageRecord ρ)} {events : List CheckEvent}
    {s : PerformanceCheck ρ} {passed : Bool}
    (h : checkRun chars caseClass thresholdPct performancePath (checkStart finalCode metrics) events = some s)
    (hphase : s.phase = .returned passed) :
    passed = true ∧ s.binary = some s.performanceFile ∧ ∃ before runs runLogs record,
      events = before ++ .compiled none :: runs.map .ran ∧ runs.length = 5 ∧ LogsOf runs runLogs ∧
      s.metrics = metrics.insert (getPerformanceMetricsContext performancePath).1 record ∧ record.runs = runLogs ∧
      record.averageElapsedMs = some ((runLogs.map (·.elapsedMs)).sum / 5) ∧
      (∀ checksum, record.checksum = some checksum ↔ ∀ run ∈ runs, run.checksum = some checksum) ∧
      record.correctnessCheckPassed ≠ some false := by
  have hInv := checkInv_run h
  simp only [CheckInv, hphase] at hInv
  obtain ⟨hpassed, runLogs, hfive, ⟨⟨before, runs, hevents, hlogs⟩, hfresh⟩, hrecorded⟩ := hInv
  refine ⟨hpassed, hfresh, before, runs, runLogs, _, hevents, hlogs.length ▸ hfive, hlogs, hrecorded, rfl, ?_, ?_, ?_⟩
  · show some (averageElapsed runLogs) = _
    rw [averageElapsed, hfive]
    rfl
  · intro checksum
    have hne : runLogs ≠ [] := List.ne_nil_of_length_pos (by omega)
    have hsame : (∀ log ∈ runLogs, log.checksum = some checksum) ↔ ∀ run ∈ runs, run.checksum = some checksum := by
      have hmap := hlogs.checksums
      constructor <;> intro hall
      · intro run hrun
        have hmem := List.mem_map_of_mem (f := RunResult.checksum) hrun
        rw [← hmap] at hmem
        obtain ⟨log, hlog, heq⟩ := List.mem_map.mp hmem
        rw [← heq, hall log hlog]
      · intro log hlog
        have hmem := List.mem_map_of_mem (f := RunLog.checksum) hlog
        rw [hmap] at hmem
        obtain ⟨run, hrun, heq⟩ := List.mem_map.mp hmem
        rw [← heq, hall run hrun]
    show canonicalChecksum runLogs = some checksum ↔ _
    rw [canonicalChecksum_eq_some_iff, hsame, and_iff_right hne]
  · show (canonicalChecksum runLogs).map (fun _ => true) ≠ some false
    cases canonicalChecksum runLogs <;> simp

/-- A fix, an edit and five runs. -/
def mendedEvents : List CheckEvent :=
  [.compiled (some "exp"), .compiled (some "exp"), .answered (some ['b']), .compiled none] ++
    List.replicate 5 (.ran ⟨true, some 2, some "9"⟩)

/-- The check of these events. -/
def mendedCheck : Option (PerformanceCheck Unit) :=
  checkRun CharClass.ascii CaseClass.ascii none "performance.cpp".toList (checkStart ['a'] ⟨[], List.nodup_nil⟩)
    mendedEvents

/-- The theorem on a check that returns, at one that is mended once. -/
theorem check_returned_mended :
    ∃ s, mendedCheck = some s ∧ s.phase = .returned true ∧ s.binary = some s.performanceFile := by
  have hphase : mendedCheck.map (·.phase) = some (.returned true) := by decide +kernel
  obtain ⟨s, hs, hphase⟩ := Option.map_eq_some_iff.mp hphase
  exact ⟨s, hs, hphase, (check_returned hs hphase).2.1⟩

/-- The check of an entry that does not compile, with nobody there. -/
def abandonedCheck : Option (PerformanceCheck Unit) :=
  checkRun CharClass.ascii CaseClass.ascii none "performance.cpp".toList (checkStart ['a'] ⟨[], List.nodup_nil⟩)
    [.compiled (some "exp"), .compiled (some "exp"), .answered none]

variable (chars caseClass) in
/-- How many events there can be without an answer. -/
def checkFuel (s : PerformanceCheck ρ) : Nat :=
  match s.phase with
  | .compiling _ => autoFixBound chars caseClass s.performanceFile + 7
  | .recompiling _ => 7
  | .running runLogs => 6 - runLogs.length
  | .offeringFix | .offeringRecompile _ => 1
  | .returned _ | .raised => 0

variable (chars caseClass) in
/-- What an answer adds. -/
def editFuel (edited : List Char) : Nat := autoFixBound chars caseClass edited + 7

variable (chars caseClass) in
/-- A check whose file names no MD5 library, and with fewer than five runs. -/
structure Bounded (s : PerformanceCheck ρ) : Prop where
  md5Free : Md5Free (sanitizedText chars caseClass s.performanceFile)
  few : ∀ runLogs, s.phase = .running runLogs → runLogs.length < 5

/-- Every event costs the measure one at least, except that an edit brings its own share. -/
theorem checkFuel_step {s s' : PerformanceCheck ρ} {event : CheckEvent} (hs : Bounded chars caseClass s)
    (hedits : ∀ edited ∈ edits [event], Md5Free (sanitizedText chars caseClass edited))
    (h : checkStep chars caseClass thresholdPct performancePath s event = some s') :
    Bounded chars caseClass s' ∧
      checkFuel chars caseClass s' + 1 ≤
        checkFuel chars caseClass s + ((edits [event]).map (editFuel chars caseClass)).sum := by
  cases checkMove_of_step h with
  | built hphase =>
    refine ⟨⟨hs.md5Free, fun runLogs hrunning => ?_⟩, ?_⟩
    · cases hrunning
      decide
    · rcases hphase with ⟨_, hphase⟩ | ⟨_, hphase⟩ <;> simp [checkFuel, hphase]
  | autoFixed hphase hfix =>
    obtain ⟨hnext, hlt⟩ := autoFix_decreases hs.md5Free hfix
    refine ⟨⟨hnext, hs.few⟩, ?_⟩
    simp only [checkFuel, hphase]
    omega
  | @notFixed offered _ hphase _ =>
    refine ⟨⟨hs.md5Free, fun runLogs hrunning => ?_⟩, ?_⟩
    · cases offered <;> simp at hrunning
    · cases offered <;> simp [checkFuel, hphase]
  | stillBroken hphase =>
    refine ⟨⟨hs.md5Free, fun runLogs hrunning => by simp at hrunning⟩, ?_⟩
    simp [checkFuel, hphase]
  | @edited text hphase =>
    refine ⟨⟨hedits text (by simp), fun runLogs hrunning => by simp at hrunning⟩, ?_⟩
    rw [edits_answered, Option.toList_some, List.map_singleton, List.sum_singleton]
    simp only [checkFuel, editFuel, hphase]
    omega
  | @editedAgain _ text hphase =>
    refine ⟨⟨hedits text (by simp), fun runLogs hrunning => by simp at hrunning⟩, ?_⟩
    rw [edits_answered, Option.toList_some, List.map_singleton, List.sum_singleton]
    simp only [checkFuel, editFuel, hphase]
    omega
  | unanswered hphase =>
    refine ⟨⟨hs.md5Free, fun runLogs hrunning => by simp at hrunning⟩, ?_⟩
    rcases hphase with hphase | hphase <;> simp [checkFuel, hphase]
  | mismatchKept hphase =>
    rw [finishCheck_eq]
    refine ⟨⟨hs.md5Free, fun runLogs hrunning => by simp at hrunning⟩, ?_⟩
    simp [checkFuel, hphase]
  | @measured runLogs _ _ hphase _ _ =>
    have hlt := hs.few runLogs hphase
    rw [afterRun_eq]
    split
    · rename_i hfew
      refine ⟨⟨hs.md5Free, fun later hrunning => ?_⟩, ?_⟩
      · cases hrunning
        exact hfew
      · simp only [checkFuel, hphase, List.length_append, List.length_singleton]
        omega
    · rw [finishCheck_eq]
      refine ⟨⟨hs.md5Free, fun later hrunning => by simp at hrunning⟩, ?_⟩
      simp only [checkFuel, hphase]
      omega
  | runFailed hphase _ =>
    have hlt := hs.few _ hphase
    refine ⟨⟨hs.md5Free, fun runLogs hrunning => by simp at hrunning⟩, ?_⟩
    simp only [checkFuel, hphase]
    omega

/-- So over a whole history there are no more events than the measure at the start and the shares of
the edits, by induction on the history. -/
theorem checkFuel_run {events : List CheckEvent} {s s' : PerformanceCheck ρ} (hs : Bounded chars caseClass s)
    (hedits : ∀ edited ∈ edits events, Md5Free (sanitizedText chars caseClass edited))
    (h : checkRun chars caseClass thresholdPct performancePath s events = some s') :
    events.length + checkFuel chars caseClass s' ≤
      checkFuel chars caseClass s + ((edits events).map (editFuel chars caseClass)).sum := by
  induction events generalizing s with
  | nil =>
    obtain rfl := Option.some.inj h
    simp [edits]
  | cons event events ih =>
    rw [checkRun, List.foldlM_cons] at h
    obtain ⟨next, hstep, hrun⟩ := Option.bind_eq_some_iff.mp h
    have hsplit : edits (event :: events) = edits [event] ++ edits events := edits_append [event] events
    rw [hsplit] at hedits ⊢
    obtain ⟨hnext, hlt⟩ := checkFuel_step hs (fun edited hmem => hedits edited (List.mem_append_left _ hmem)) hstep
    have hle := ih hnext (fun edited hmem => hedits edited (List.mem_append_right _ hmem)) hrun
    rw [List.length_cons, List.map_append, List.sum_append]
    omega

/-- **A check ends** unless it is answered again and again: if no file names an MD5 library, each text allows as many
events as it can be fixed, and seven more. -/
theorem check_events_le {finalCode : List Char} {metrics : Dict String (StageRecord ρ)} {events : List CheckEvent}
    {s : PerformanceCheck ρ}
    (h : checkRun chars caseClass thresholdPct performancePath (checkStart finalCode metrics) events = some s)
    (hfree : ∀ text ∈ finalCode :: edits events, Md5Free (sanitizedText chars caseClass text)) :
    events.length ≤ ((finalCode :: edits events).map (editFuel chars caseClass)).sum := by
  have hstart : Bounded chars caseClass (checkStart finalCode metrics) :=
    ⟨hfree finalCode List.mem_cons_self, fun runLogs hrunning => by cases hrunning⟩
  have hle := checkFuel_run hstart (fun edited hmem => hfree edited (List.mem_cons_of_mem _ hmem)) h
  rw [List.map_cons, List.sum_cons]
  exact (Nat.le_add_right _ _).trans hle

/-- The bound at a check that is mended once. -/
theorem check_events_le_mended : mendedEvents.length ≤
    ((['a'] :: edits mendedEvents).map (editFuel CharClass.ascii CaseClass.ascii)).sum := by
  have hsome : mendedCheck.isSome := by decide +kernel
  obtain ⟨s, hs⟩ := Option.isSome_iff_exists.mp hsome
  have hfree : ∀ text ∈ ['a'] :: edits mendedEvents, Md5Free text := by
    unfold Md5Free
    decide +kernel
  exact check_events_le hs fun text htext => md5Free_sanitizedText (hfree text htext)

end Check

end Assure
