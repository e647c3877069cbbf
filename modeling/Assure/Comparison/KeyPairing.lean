import Assure.Comparison.MatchNodes
import Assure.Library.Loop
import Mathlib.Data.List.MinMax
import Mathlib.Data.Prod.Lex
import Mathlib.Data.String.Basic

/-!
# The pairing of exported results

The values of a run are stored under keys `function/argument`, one directory each.
`compareAndExportCsv` looks for the Rust key that goes with each C key: the key itself with its
argument index sent through the argument map, else a key that extends it as text, else a key that
extends a looser spelling. Among several the longest is taken, or the last one for a first field.

Text that extends `arg_value_1` may be `arg_value_10`, and the flag that a key was found is set before
one is chosen. `pairKey_right_iff` says exactly when the pairing is right: when there is a choice among
the prefix candidates, and the candidate that leads carries the mapped index.

The equivalence is for every map, key and list of Rust keys. The export writes one row for each C
key that is paired, with the keys of the pair (`compareAndExportCsv_rows`); what the rows say about
distances is not part of it.
-/

namespace Assure

open Assure.Library Assure.Library.Pattern

/-- **What the pairing looks at**: `field_map`, and what `\d` and `int` make of a digit. -/
structure KeyPairing where
  charClass : CharClass
  digitValue : Char → Nat
  fieldMap : Dict String (Dict String String)

/-! ## Keys -/

/-- `text.startswith(start)` -/
def startsWith (text start : String) : Bool := start.toList.isPrefixOf text.toList

/-- `text.endswith(ending)` -/
def endsWith (text ending : String) : Bool := ending.toList.isSuffixOf text.toList

/-- The part of a key before its slash. -/
def functionNameOf (key : String) : String := String.ofList (key.toList.takeWhile (· ≠ '/'))

/-- The part of a key after its slash. -/
def argumentNameOf (key : String) : String := String.ofList ((key.toList.dropWhile (· ≠ '/')).drop 1)

namespace KeyPairing

/-- `arg_value_\d+\b` -/
def indexPattern (p : KeyPairing) : Pattern Unit := do
  lit "arg_value_"
  let _ ← many1 p.charClass.digit
  boundary p.charClass

/-- `replace_arg_index` -/
def replaceArgIndex (p : KeyPairing) (expr newIdx : String) : String :=
  sub p.indexPattern ("arg_value_" ++ newIdx) expr

/-- `extract_single_index` -/
def extractSingleIndex (p : KeyPairing) (expr : String) : Option Nat :=
  (search (do lit "arg_value_"; many1 p.charClass.digit) expr).map fun found =>
    found.1.foldl (fun n c => 10 * n + p.digitValue c) 0

/-- `str(extract_single_index(…))` -/
def indexText (p : KeyPairing) (argument : String) : String :=
  match p.extractSingleIndex argument with
  | some i => toString i
  | none => "None"

/-- What the map has for the index of a C key. -/
def mapped? (p : KeyPairing) (cKey : String) : Option String :=
  (p.fieldMap.get? (functionNameOf cKey)).bind fun fieldNameMap =>
    (fieldNameMap.get? (p.indexText (argumentNameOf cKey))).map firstToken

/-- `mapped_c_key` -/
def mappedKey (p : KeyPairing) (cKey : String) : String :=
  match p.mapped? cKey with
  | some index => p.replaceArgIndex cKey index
  | none => cKey

end KeyPairing

/-! ## The pairing -/

/-- `all_lengths_equal`; it is asked about lists that are not empty. -/
def allLengthsEqual (arr : List String) : Bool :=
  arr.all fun s => some s.length = arr.head?.map String.length

/-- The first loop: the prefix candidates so far, and the mapped key if the loop came to it. -/
def prefixLoop (mappedCKey : String) : List String → List String → List String × Option String
  | matchingRKeys, [] => (matchingRKeys, none)
  | matchingRKeys, rKey :: rKeys =>
    if rKey = mappedCKey then (matchingRKeys, some rKey)
    else prefixLoop mappedCKey
      (if startsWith rKey mappedCKey then matchingRKeys ++ [rKey] else matchingRKeys) rKeys

/-- A label of a first field. -/
def endsInFieldZero (rKey : String) : Bool := endsWith rKey "field_0)" || endsWith rKey "field_0"

/-- `c_key_modified`: the mapped key without its closing bracket. -/
def cKeyModified (mappedCKey : String) : String :=
  if endsWith mappedCKey ")" then String.ofList mappedCKey.toList.dropLast else mappedCKey

/-- A candidate of the second loop. -/
def isFallback (cKey mappedCKey rKey : String) : Bool :=
  let modified := cKeyModified mappedCKey
  if startsWith rKey modified && contains rKey (functionNameOf cKey) then true
  else if contains modified "ret_value" then contains rKey "ret_value" && functionNameOf cKey == rKey
  else if contains cKey "/" then
    let slash := (cKey.toList.takeWhile (· ≠ '/')).length
    let tempCKey := String.ofList
      (modified.toList.take (slash + 1) ++ "*(".toList ++ modified.toList.drop (slash + 1))
    startsWith rKey tempCKey && contains rKey (functionNameOf cKey)
  else false

/-- `(len(k), k.endswith("field_0)"), k)` -/
def fallbackRank (rKey : String) : Nat ×ₗ (Bool ×ₗ String) :=
  toLex (rKey.length, toLex (endsWith rKey "field_0)", rKey))

/-- `found_match_input_directory` and `best_r_key`. -/
structure Paired where
  found : Bool
  best : Option String
  deriving DecidableEq

/-- The choice among the prefix candidates. -/
def choosePrefix (matchingRKeys : List String) (exact : Option String) : Option String :=
  if matchingRKeys = [] then exact
  else if !allLengthsEqual matchingRKeys then matchingRKeys.argmax String.length
  else matchingRKeys.foldl (fun best rKey => if endsInFieldZero rKey then some rKey else best) exact

/-- The choice among the candidates of the second loop. -/
def chooseFallback (matchingRKeys : List String) : Paired :=
  let chosen : Paired :=
    if matchingRKeys = [] then ⟨false, none⟩
    else if !allLengthsEqual matchingRKeys then ⟨true, matchingRKeys.argmax fallbackRank⟩
    else matchingRKeys.foldl
      (fun chosen rKey => if endsWith rKey "field_0)" then ⟨true, some rKey⟩ else chosen) ⟨false, none⟩
  if !chosen.found && matchingRKeys ≠ [] then ⟨true, matchingRKeys.head?⟩ else chosen

/-- **The pairing of one C key.** -/
def KeyPairing.pairKey (p : KeyPairing) (rustKeys : List String) (cKey : String) : Paired :=
  let mappedCKey := p.mappedKey cKey
  let (matchingRKeys, exact) := prefixLoop mappedCKey [] rustKeys
  if exact.isSome || matchingRKeys ≠ [] then ⟨true, choosePrefix matchingRKeys exact⟩
  else chooseFallback (rustKeys.filter (isFallback cKey mappedCKey))

/-! ## The export -/

/-- `special_handle_list` -/
def specialHandleList : List (String × String) :=
  [("csv_parse/ret_value_1", "0"), ("u8strlen/ret_value_2", "0"), ("u8codepoint/ret_value_3", "0"),
    ("u8strncat/ret_value_3", "0"), ("u8strlen/ret_value_1", "0"), ("csv_write/arg_value_0_1", "10000")]

/-- `check_special_handle_list` -/
def checkSpecialHandleList (cKey : String) : Option String :=
  (specialHandleList.find? fun entry => entry.1 = cKey).map Prod.snd

/-- A row of one of the two tables. -/
inductive ExportRow
  | freeCount (functionName argumentName difference : String)
  | bestDistance (functionName argumentName distance : String)

/-- **What an export runs on**: the number of the model, the difference in free calls, which is missing
where the C count cannot be read, and the distance between the values of two keys. -/
structure Export extends KeyPairing where
  model : String
  freeDifference : String → Option String → Option String
  editDistance : String → String → String

/-- The row for a C key; `none` is the exception on a key that is `None`. -/
def Export.row (e : Export) (rustKeys : List String) (cKey : String) : Option ExportRow :=
  let paired := e.pairKey rustKeys cKey
  let functionName := functionNameOf cKey
  let argumentName := argumentNameOf cKey
  if endsWith cKey "free_call_counts" then
    (e.freeDifference cKey paired.best).map (.freeCount functionName argumentName)
  else if paired.found then
    match checkSpecialHandleList (cKey ++ "_" ++ e.model) with
    | some distance => some (.bestDistance functionName argumentName distance)
    | none => paired.best.map fun rKey => .bestDistance functionName argumentName (e.editDistance cKey rKey)
  else if functionName ∈ rustKeys.map functionNameOf then
    some (.bestDistance functionName argumentName "Rust Empty! (arg absent)")
  else some (.bestDistance functionName argumentName "Rust Empty!")

/-- **`compare_and_export_csv`**: the rows, in order. -/
def Export.compareAndExportCsv (e : Export) (cKeys rustKeys : List String) : Option (List ExportRow) :=
  cKeys.mapM (e.row rustKeys)

/-! ## What is chosen -/

/-- The Rust keys before the mapped key that extend it as text. -/
def prefixCandidates (mappedCKey : String) (rustKeys : List String) : List String :=
  (rustKeys.takeWhile (· ≠ mappedCKey)).filter (startsWith · mappedCKey)

/-- The first loop in closed form: it gathers the keys that begin with the mapped key, in order, and
remembers whether the mapped key is itself among them. -/
theorem prefixLoop_eq (mappedCKey : String) : ∀ rustKeys matchingRKeys : List String,
    prefixLoop mappedCKey matchingRKeys rustKeys =
      (matchingRKeys ++ prefixCandidates mappedCKey rustKeys,
        if mappedCKey ∈ rustKeys then some mappedCKey else none)
  | [], matchingRKeys => by simp [prefixLoop, prefixCandidates]
  | rKey :: rKeys, matchingRKeys => by
    rw [prefixLoop]
    by_cases hexact : rKey = mappedCKey
    · rw [if_pos hexact, hexact]
      simp [prefixCandidates]
    · have hmem : mappedCKey ∈ rKey :: rKeys ↔ mappedCKey ∈ rKeys := by
        rw [List.mem_cons, or_iff_right fun h => hexact h.symm]
      rw [if_neg hexact, prefixLoop_eq mappedCKey rKeys, if_congr hmem rfl rfl]
      by_cases hstart : startsWith rKey mappedCKey = true
      · simp [prefixCandidates, hexact, hstart]
      · simp [prefixCandidates, hexact, hstart]

/-- A loop that keeps the last element of a kind. -/
theorem foldl_last {α β : Type*} (q : α → Bool) (f : α → β) (l : List α) (init : β) :
    l.foldl (fun kept x => if q x then f x else kept) init = ((l.reverse.find? q).map f).getD init := by
  induction l using List.reverseRecOn with
  | nil => rfl
  | append_singleton l x ih =>
    rw [List.foldl_append, List.reverse_append, List.foldl_cons, List.foldl_nil, ih]
    cases hx : q x with
    | false => simp [hx]
    | true => simp [hx]

/-- The choice among the gathered keys in closed form: if all are equally long, the last one that
ends in field zero, or else the key itself; otherwise the first of the longest. -/
theorem choosePrefix_eq (matchingRKeys : List String) (exact : Option String) :
    choosePrefix matchingRKeys exact =
      if allLengthsEqual matchingRKeys = true then (matchingRKeys.reverse.find? endsInFieldZero).or exact
      else matchingRKeys.argmax String.length := by
  unfold choosePrefix
  split
  · rename_i hnil
    rw [hnil]
    rfl
  · rw [foldl_last endsInFieldZero some]
    cases allLengthsEqual matchingRKeys with
    | false => rfl
    | true => cases matchingRKeys.reverse.find? endsInFieldZero <;> rfl

/-- The choice among the keys of the second loop in closed form. Nothing is found exactly where
there are none. -/
theorem chooseFallback_eq (matchingRKeys : List String) :
    chooseFallback matchingRKeys = if matchingRKeys = [] then ⟨false, none⟩ else
      ⟨true, if allLengthsEqual matchingRKeys = true then
          (matchingRKeys.reverse.find? (endsWith · "field_0)")).or matchingRKeys.head?
        else matchingRKeys.argmax fallbackRank⟩ := by
  unfold chooseFallback
  by_cases hnil : matchingRKeys = []
  · rw [if_pos hnil, if_pos hnil]
    simp [hnil]
  · rw [if_neg hnil, if_neg hnil, foldl_last (endsWith · "field_0)") fun rKey => (⟨true, some rKey⟩ : Paired)]
    cases allLengthsEqual matchingRKeys with
    | false => rfl
    | true => cases matchingRKeys.reverse.find? (endsWith · "field_0)") <;> simp [hnil]

namespace KeyPairing

variable {p : KeyPairing} {rustKeys : List String} {cKey : String}

variable (p rustKeys cKey) in
/-- The prefix candidates for a C key. -/
def prefixKeys : List String := prefixCandidates (p.mappedKey cKey) rustKeys

variable (p rustKeys cKey) in
/-- The candidates of the second loop. -/
def fallbackKeys : List String := rustKeys.filter (isFallback cKey (p.mappedKey cKey))

variable (p rustKeys cKey) in
/-- **The candidate that leads.** Among prefix candidates of several lengths it is the first longest; else
the last one for a first field, then the mapped key itself. Without any of these it is the greatest of the
other candidates, or the last for a first field, or the first. -/
inductive Leads : String → Prop
  | longest {k : String} (hlengths : allLengthsEqual (p.prefixKeys rustKeys cKey) = false)
    (hk : k ∈ (p.prefixKeys rustKeys cKey).argmax String.length) : Leads k
  | firstField {k : String} (hlengths : allLengthsEqual (p.prefixKeys rustKeys cKey) = true)
    (hk : k ∈ (p.prefixKeys rustKeys cKey).reverse.find? endsInFieldZero) : Leads k
  | exact (hlengths : allLengthsEqual (p.prefixKeys rustKeys cKey) = true)
    (hfields : ∀ k ∈ p.prefixKeys rustKeys cKey, endsInFieldZero k = false)
    (hmem : p.mappedKey cKey ∈ rustKeys) : Leads (p.mappedKey cKey)
  | longestFallback {k : String} (hnil : p.prefixKeys rustKeys cKey = []) (hmem : p.mappedKey cKey ∉ rustKeys)
    (hlengths : allLengthsEqual (p.fallbackKeys rustKeys cKey) = false)
    (hk : k ∈ (p.fallbackKeys rustKeys cKey).argmax fallbackRank) : Leads k
  | fallbackField {k : String} (hnil : p.prefixKeys rustKeys cKey = []) (hmem : p.mappedKey cKey ∉ rustKeys)
    (hlengths : allLengthsEqual (p.fallbackKeys rustKeys cKey) = true)
    (hk : k ∈ (p.fallbackKeys rustKeys cKey).reverse.find? (endsWith · "field_0)")) : Leads k
  | fallback {k : String} (hnil : p.prefixKeys rustKeys cKey = []) (hmem : p.mappedKey cKey ∉ rustKeys)
    (hlengths : allLengthsEqual (p.fallbackKeys rustKeys cKey) = true)
    (hfields : ∀ r ∈ p.fallbackKeys rustKeys cKey, endsWith r "field_0)" = false)
    (hk : k ∈ (p.fallbackKeys rustKeys cKey).head?) : Leads k

variable (p rustKeys cKey) in
/-- **There is a choice among the prefix candidates**: if they are of one length and none is for a first
field, the mapped key is there. -/
def HasLeader : Prop :=
  p.prefixKeys rustKeys cKey ≠ [] → allLengthsEqual (p.prefixKeys rustKeys cKey) = true →
    (∀ k ∈ p.prefixKeys rustKeys cKey, endsInFieldZero k = false) → p.mappedKey cKey ∈ rustKeys

/-- The whole of a pairing in terms of the two lists of candidates: the first list decides where it
has an entry or the key itself is there, and else the second. -/
theorem pairKey_eq : p.pairKey rustKeys cKey =
    if p.mappedKey cKey ∈ rustKeys ∨ p.prefixKeys rustKeys cKey ≠ [] then
      ⟨true, choosePrefix (p.prefixKeys rustKeys cKey)
        (if p.mappedKey cKey ∈ rustKeys then some (p.mappedKey cKey) else none)⟩
    else chooseFallback (p.fallbackKeys rustKeys cKey) := by
  unfold pairKey
  dsimp only
  rw [prefixLoop_eq, List.nil_append]
  by_cases hmem : p.mappedKey cKey ∈ rustKeys
  · simp [hmem, prefixKeys]
  · simp [hmem, prefixKeys, fallbackKeys]

/-- Searching from the end fails exactly if searching from the front would. -/
theorem find?_reverse_eq_none {q : String → Bool} {l : List String} :
    l.reverse.find? q = none ↔ ∀ k ∈ l, q k = false := by
  simp

/-- **The chosen key is the leader.** -/
theorem pairKey_best_iff {k : String} : (p.pairKey rustKeys cKey).best = some k ↔ p.Leads rustKeys cKey k := by
  rw [pairKey_eq]
  constructor
  · intro h
    split at h
    · replace h : choosePrefix _ _ = some k := h
      rw [choosePrefix_eq] at h
      split at h
      · rename_i hlengths
        rcases Option.or_eq_some_iff.mp h with hfield | ⟨hnone, hexact⟩
        · exact .firstField hlengths hfield
        · split at hexact
          · rename_i hmem
            obtain rfl := Option.some.inj hexact
            exact .exact hlengths (find?_reverse_eq_none.mp hnone) hmem
          · cases hexact
      · rename_i hlengths
        exact .longest (Bool.eq_false_iff.mpr hlengths) h
    · rename_i hnone
      push Not at hnone
      obtain ⟨hmem, hnil⟩ := hnone
      rw [chooseFallback_eq] at h
      split at h
      · cases h
      · replace h : (if _ then _ else _ : Option String) = some k := h
        split at h
        · rename_i hlengths
          rcases Option.or_eq_some_iff.mp h with hfield | ⟨hfields, hhead⟩
          · exact .fallbackField hnil hmem hlengths hfield
          · exact .fallback hnil hmem hlengths (find?_reverse_eq_none.mp hfields) hhead
        · rename_i hlengths
          exact .longestFallback hnil hmem (Bool.eq_false_iff.mpr hlengths) h
  · have hfallback : p.prefixKeys rustKeys cKey = [] → p.mappedKey cKey ∉ rustKeys →
        ¬ (p.mappedKey cKey ∈ rustKeys ∨ p.prefixKeys rustKeys cKey ≠ []) := by
      intro hnil hmem h
      rcases h with h | h
      · exact hmem h
      · exact h hnil
    have hne : ∀ {o : List String → Option String} {l : List String}, o [] = none → o l = some k → l ≠ [] := by
      intro o l hnone hk hnil
      rw [hnil, hnone] at hk
      cases hk
    intro h
    cases h with
    | longest hlengths hk =>
      rw [if_pos (.inr (hne (List.argmax_nil _) hk))]
      show choosePrefix _ _ = _
      rw [choosePrefix_eq, if_neg (Bool.eq_false_iff.mp hlengths)]
      exact hk
    | firstField hlengths hk =>
      rw [if_pos (.inr (hne (o := fun l => l.reverse.find? endsInFieldZero) rfl hk))]
      show choosePrefix _ _ = _
      rw [choosePrefix_eq, if_pos hlengths, Option.mem_def.mp hk]
      rfl
    | exact hlengths hfields hmem =>
      rw [if_pos (.inl hmem), if_pos hmem]
      show choosePrefix _ _ = _
      rw [choosePrefix_eq, if_pos hlengths, find?_reverse_eq_none.mpr hfields]
      rfl
    | longestFallback hnil hmem hlengths hk =>
      rw [if_neg (hfallback hnil hmem), chooseFallback_eq, if_neg (hne (List.argmax_nil _) hk),
        if_neg (Bool.eq_false_iff.mp hlengths)]
      exact hk
    | fallbackField hnil hmem hlengths hk =>
      rw [if_neg (hfallback hnil hmem), chooseFallback_eq,
        if_neg (hne (o := fun l => l.reverse.find? (endsWith · "field_0)")) rfl hk), if_pos hlengths,
        Option.mem_def.mp hk]
      rfl
    | fallback hnil hmem hlengths hfields hk =>
      rw [if_neg (hfallback hnil hmem), chooseFallback_eq, if_neg (hne (o := List.head?) rfl hk),
        if_pos hlengths, find?_reverse_eq_none.mpr hfields]
      exact hk

/-- Where a key is chosen, one was found. -/
theorem pairKey_found {k : String} (h : (p.pairKey rustKeys cKey).best = some k) :
    (p.pairKey rustKeys cKey).found = true := by
  rw [pairKey_eq] at h ⊢
  split
  · rfl
  · rename_i hcandidates
    rw [if_neg hcandidates] at h
    rw [chooseFallback_eq] at h ⊢
    split
    · rename_i hnil
      rw [if_pos hnil] at h
      cases h
    · rfl

/-- The leader is a Rust key. -/
theorem Leads.mem {k : String} (h : p.Leads rustKeys cKey k) : k ∈ rustKeys := by
  have hsub : ∀ x ∈ p.prefixKeys rustKeys cKey, x ∈ rustKeys := fun x hx =>
    (List.takeWhile_sublist _).subset (List.mem_filter.mp hx).1
  have hfallback : ∀ x ∈ p.fallbackKeys rustKeys cKey, x ∈ rustKeys := fun x hx => (List.mem_filter.mp hx).1
  cases h with
  | longest _ hk => exact hsub k (List.argmax_mem hk)
  | firstField _ hk => exact hsub k (List.mem_reverse.mp (List.mem_of_find?_eq_some hk))
  | exact _ _ hmem => exact hmem
  | longestFallback _ _ _ hk => exact hfallback k (List.argmax_mem hk)
  | fallbackField _ _ _ hk => exact hfallback k (List.mem_reverse.mp (List.mem_of_find?_eq_some hk))
  | fallback _ _ _ _ hk => exact hfallback k (List.mem_of_mem_head? hk)

/-- **A key is found without a key being chosen** exactly if the prefix candidates have no leader. -/
theorem pairKey_none_iff : ((p.pairKey rustKeys cKey).found = true ∧ (p.pairKey rustKeys cKey).best = none) ↔
    ¬ p.HasLeader rustKeys cKey := by
  unfold HasLeader
  rw [pairKey_eq]
  constructor
  · rintro ⟨hfound, hbest⟩ hleader
    split at hbest
    · rename_i hcandidates
      replace hbest : choosePrefix _ _ = none := hbest
      rw [choosePrefix_eq] at hbest
      split at hbest
      · rename_i hlengths
        obtain ⟨hfields, hexact⟩ := Option.or_eq_none_iff.mp hbest
        have hmem : p.mappedKey cKey ∉ rustKeys := by
          intro hmem
          rw [if_pos hmem] at hexact
          cases hexact
        exact hmem (hleader (hcandidates.resolve_left hmem) hlengths (find?_reverse_eq_none.mp hfields))
      · rename_i hlengths
        rw [List.argmax_eq_none.mp hbest] at hlengths
        exact hlengths rfl
    · rename_i hcandidates
      rw [if_neg hcandidates, chooseFallback_eq] at hfound
      rw [chooseFallback_eq] at hbest
      split at hbest
      · rename_i hnil
        rw [if_pos hnil] at hfound
        cases hfound
      · rename_i hnil
        replace hbest : (if _ then _ else _ : Option String) = none := hbest
        split at hbest
        · exact hnil (List.head?_eq_none_iff.mp (Option.or_eq_none_iff.mp hbest).2)
        · exact hnil (List.argmax_eq_none.mp hbest)
  · intro h
    push Not at h
    obtain ⟨hnil, hlengths, hfields, hmem⟩ := h
    rw [if_pos (.inr hnil), if_neg hmem]
    refine ⟨rfl, ?_⟩
    show choosePrefix _ _ = _
    rw [choosePrefix_eq, if_pos hlengths, find?_reverse_eq_none.mpr hfields]
    rfl

variable (p cKey) in
/-- The index of a Rust key is the image of the C key's index under the map. -/
def CarriesIndex (rKey : String) : Prop :=
  p.indexText (argumentNameOf rKey) = (p.mapped? cKey).getD (p.indexText (argumentNameOf cKey))

variable (p rustKeys cKey) in
/-- **A C key is paired right**: marked as matched, it has a Rust key of the mapped index. -/
def PairedRight : Prop :=
  (p.pairKey rustKeys cKey).found = true →
    ∃ k ∈ rustKeys, (p.pairKey rustKeys cKey).best = some k ∧ p.CarriesIndex cKey k

/-- A pairing with a key counts as found. -/
theorem found_of_best {k : String} (h : (p.pairKey rustKeys cKey).best = some k) :
    (p.pairKey rustKeys cKey).found = true := by
  rw [pairKey_eq] at h ⊢
  split
  · rfl
  · rename_i hcandidates
    rw [if_neg hcandidates, chooseFallback_eq] at h
    rw [chooseFallback_eq]
    split
    · rename_i hnil
      rw [if_pos hnil] at h
      cases h
    · rfl

/-- **When the pairing is right**: the prefix candidates have a leader, and whatever leads carries the
mapped index. -/
theorem pairKey_right_iff (p : KeyPairing) (rustKeys : List String) (cKey : String) :
    p.PairedRight rustKeys cKey ↔
      p.HasLeader rustKeys cKey ∧ ∀ k, p.Leads rustKeys cKey k → p.CarriesIndex cKey k := by
  constructor
  · intro h
    constructor
    · by_contra hleader
      obtain ⟨hfound, hbest⟩ := pairKey_none_iff.mpr hleader
      obtain ⟨k, -, hk, -⟩ := h hfound
      rw [hbest] at hk
      cases hk
    · intro k hk
      have hbest := pairKey_best_iff.mpr hk
      obtain ⟨k', -, hk', hindex⟩ := h (found_of_best hbest)
      obtain rfl := Option.some.inj (hbest.symm.trans hk')
      exact hindex
  · rintro ⟨hleader, hindex⟩ hfound
    cases hbest : (p.pairKey rustKeys cKey).best with
    | none => exact absurd hleader (pairKey_none_iff.mp ⟨hfound, hbest⟩)
    | some k =>
      have hk := pairKey_best_iff.mp hbest
      exact ⟨k, hk.mem, rfl, hindex k hk⟩

/-- A comparison without an argument map, on ASCII keys. -/
def unmapped : KeyPairing := ⟨.ascii, fun c => c.toNat - 48, ⟨[], by decide⟩⟩

/-- The tenth argument passes for the first one: alone it is found and not chosen, and with a longer label
beside it it is chosen over the first argument itself. -/
theorem pairKey_tenthArgument :
    ¬ unmapped.PairedRight ["f/arg_value_10"] "f/arg_value_1" ∧
      unmapped.pairKey ["f/arg_value_10", "f/arg_value_10.field_1", "f/arg_value_1"] "f/arg_value_1" =
        ⟨true, some "f/arg_value_10.field_1"⟩ ∧
      ¬ unmapped.PairedRight ["f/arg_value_10", "f/arg_value_10.field_1", "f/arg_value_1"] "f/arg_value_1" := by
  have hfound : unmapped.pairKey ["f/arg_value_10"] "f/arg_value_1" = ⟨true, none⟩ := by decide +kernel
  have hlonger : unmapped.pairKey ["f/arg_value_10", "f/arg_value_10.field_1", "f/arg_value_1"]
      "f/arg_value_1" = ⟨true, some "f/arg_value_10.field_1"⟩ := by decide +kernel
  refine ⟨fun h => ?_, hlonger, fun h => ?_⟩
  · rw [PairedRight, hfound] at h
    obtain ⟨k, -, hk, -⟩ := h rfl
    cases hk
  · rw [PairedRight, hlonger] at h
    obtain ⟨k, -, hk, hindex⟩ := h rfl
    obtain rfl := Option.some.inj hk
    revert hindex
    unfold CarriesIndex
    decide +kernel

end KeyPairing

/-! ## The rows of an export -/

/-- **The distance in a row** is that to the key that leads, where there is one and nothing special is noted of the key. -/
theorem row_of_leads {e : Export} {rustKeys : List String} {cKey rKey : String} {row : ExportRow}
    (hrow : e.row rustKeys cKey = some row) (hleads : e.Leads rustKeys cKey rKey)
    (hfree : endsWith cKey "free_call_counts" = false)
    (hspecial : checkSpecialHandleList (cKey ++ "_" ++ e.model) = none) :
    row = .bestDistance (functionNameOf cKey) (argumentNameOf cKey) (e.editDistance cKey rKey) := by
  have hbest := KeyPairing.pairKey_best_iff.mpr hleads
  have hfound := KeyPairing.pairKey_found hbest
  unfold Export.row at hrow
  dsimp only at hrow
  rw [hfree, if_neg Bool.false_ne_true, if_pos hfound, hspecial] at hrow
  simp only [hbest, Option.map_some, Option.some.injEq] at hrow
  exact hrow.symm

/-- **An export of keys that all have a leader ends with a row for each key, in order**, if the counts of free calls can be
read; and the distance in a row is the one to the leader. -/
theorem compareAndExportCsv_rows {e : Export} {cKeys rustKeys : List String}
    (hleaders : ∀ cKey ∈ cKeys, e.HasLeader rustKeys cKey)
    (hfree : ∀ cKey ∈ cKeys, ∀ best, (e.freeDifference cKey best).isSome) :
    ∃ rows, e.compareAndExportCsv cKeys rustKeys = some rows ∧ List.Forall₂ (fun cKey row =>
      ∀ rKey, e.Leads rustKeys cKey rKey → endsWith cKey "free_call_counts" = false →
        checkSpecialHandleList (cKey ++ "_" ++ e.model) = none →
          row = .bestDistance (functionNameOf cKey) (argumentNameOf cKey) (e.editDistance cKey rKey)) cKeys rows := by
  have hrow : ∀ cKey ∈ cKeys, (e.row rustKeys cKey).isSome := by
    intro cKey hcKey
    unfold Export.row
    dsimp only
    split
    · rw [Option.isSome_map]
      exact hfree cKey hcKey _
    · split
      · rename_i hfound
        split
        · rfl
        · rw [Option.isSome_map, Option.isSome_iff_ne_none]
          intro hnone
          exact KeyPairing.pairKey_none_iff.mp ⟨hfound, hnone⟩ (hleaders cKey hcKey)
      · split <;> rfl
  have hrows : e.compareAndExportCsv cKeys rustKeys =
      some (cKeys.map fun cKey => (e.row rustKeys cKey).getD (.bestDistance "" "" "")) := by
    refine mapM_eq_some_map cKeys fun cKey hcKey => ?_
    obtain ⟨row, h⟩ := Option.isSome_iff_exists.mp (hrow cKey hcKey)
    rw [h]
    rfl
  refine ⟨_, hrows, ?_⟩
  rw [List.forall₂_map_right_iff, List.forall₂_same]
  intro cKey hcKey rKey hleads hnoFree hspecial
  obtain ⟨row, h⟩ := Option.isSome_iff_exists.mp (hrow cKey hcKey)
  rw [h, Option.getD_some]
  exact row_of_leads h hleads hnoFree hspecial

end Assure
