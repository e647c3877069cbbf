import Assure.Comparison.MappingChecks
import Assure.Library.Blanks

/-!
# Reading the log of symbolic values

`process_sym_values` puts the records of a log together again: a record begins with `SYM VALUE`, and the lines
after it belong to it until the parentheses balance. Lines of KLEE itself may stand between them. The values
are then collected by their keys, and the greatest of the free-call counts is written to the directory of the
key that the loop has seen last.

The equivalence is for every log of records whose parentheses balance over the record, with messages
between them. A log that breaks off inside a record is not covered.
-/

namespace Assure

open Assure.Library

/-- `line.startswith(text)` -/
def beginsWith (text : String) (line : List Char) : Bool := text.toList.isPrefixOf line

/-! ## The lines -/

/-- The loop's variables. -/
structure LogScan where
  processedLines : List (List Char)
  baseAddress : List (List Char)
  buffer : List Char
  globalLeft : Nat
  globalRight : Nat

/-- **One line.** -/
def LogScan.step (chars : CharClass) (scan : LogScan) (line : List Char) : LogScan :=
  if beginsWith "SYM VALUE" line then
    if line.count '(' = line.count ')' then
      { scan with processedLines := scan.processedLines ++ [line], globalLeft := 0, globalRight := 0 }
    else { scan with buffer := line, globalLeft := line.count '(', globalRight := line.count ')' }
  else if beginsWith "Base Address" line then
    if line.count '(' = line.count ')' then
      { scan with baseAddress := scan.baseAddress ++ [line], globalLeft := 0, globalRight := 0 }
    else { scan with buffer := line, globalLeft := line.count '(', globalRight := line.count ')' }
  else if beginsWith "KLEE:" line then scan
  else
    let globalLeft := scan.globalLeft + line.count '('
    let globalRight := scan.globalRight + line.count ')'
    let buffer := scan.buffer ++ ' ' :: stripBlanks chars line
    if globalLeft = globalRight then
      { scan with
        processedLines := scan.processedLines ++ [buffer], buffer := [], globalLeft := globalLeft
        globalRight := globalRight }
    else { scan with buffer := buffer, globalLeft := globalLeft, globalRight := globalRight }

/-- The loop over the lines of a log. -/
def scanLog (chars : CharClass) (data : List Char) : LogScan :=
  (data.splitOn '\n').foldl (LogScan.step chars) ⟨[], [], [], 0, 0⟩

/-! ## The values -/

/-- What stands before the key of a record. -/
def symStart : List Char := ['S', 'Y', 'M', ' ', 'V', 'A', 'L', 'U', 'E', ':', ' ']

/-- What stands between the key and the expression. -/
def symColons : List Char := [' ', ':', ' ', ':']

/-- `SYM VALUE: (\S+) : :(.*)` at the beginning of a line, the expression without blanks around it. Since a
blank follows the key, a shorter one does not match. -/
def symValue? (chars : CharClass) (line : List Char) : Option (List Char × List Char) :=
  if symStart.isPrefixOf line then
    let rest := line.drop symStart.length
    let key := rest.takeWhile fun c => !chars.space c
    let after := rest.drop key.length
    if key ≠ [] ∧ symColons.isPrefixOf after then
      some (key, stripBlanks chars ((after.drop symColons.length).takeWhile (· ≠ '\n')))
    else none
  else none

/-- The keys and expressions that are read, in order. -/
def readRecords (chars : CharClass) (scan : LogScan) : List (List Char × List Char) :=
  scan.processedLines.filterMap (symValue? chars)

/-- **`extract_values`** -/
def extractValues (pairs : List (List Char × List Char)) : Dict (List Char) (List (List Char)) :=
  pairs.foldl (fun symDict pair =>
    let values := (symDict.get? pair.1).getD []
    symDict.insert pair.1 (if values.contains pair.2 then values else values ++ [pair.2])) Dict.empty

/-- **`extract_base_address`**: the first number of a line. -/
def extractBaseAddress (digits : DigitClass) (address : List (List Char)) : Option (List Nat) :=
  (address.filterMap fun line =>
    let number := (line.dropWhile fun c => (digits.decimal c).isNone).takeWhile fun c => (digits.decimal c).isSome
    if number ≠ [] then some (String.ofList number) else none).mapM digits.int

/-- The key of the free-call counts. -/
def freeCallCounts : List Char := "free_call_counts".toList

/-- What comes out: the values, the addresses, and the directory and number that are written. -/
structure SymValues where
  values : Dict (List Char) (List (List Char))
  addresses : List Nat
  written : Option (List Char × Nat)

/-- **`process_sym_values`**; it answers nothing when it raises. -/
def processSymValues (chars : CharClass) (digits : DigitClass) (data : List Char) : Option SymValues :=
  let scan := scanLog chars data
  let result := extractValues (readRecords chars scan)
  (extractBaseAddress digits scan.baseAddress).bind fun addresses =>
    (((((result.get? freeCallCounts).getD []).map String.ofList).filter digits.isDigits).mapM digits.int).map
      fun numericValues =>
        { values := result.without freeCallCounts
          addresses := addresses
          -- `key` is what the loop over the results has left
          written := numericValues.max?.bind fun most => result.keys.getLast?.map fun key => (key, most) }

/-! ## Records -/

/-- A message of KLEE. -/
def IsMessage (line : List Char) : Prop := beginsWith "KLEE:" line = true ∧ '\n' ∉ line

/-- A line in the middle of a record. -/
def IsPiece (line : List Char) : Prop :=
  beginsWith "SYM VALUE" line = false ∧ beginsWith "Base Address" line = false ∧ beginsWith "KLEE:" line = false ∧
    '\n' ∉ line

/-- **A record**: its key, its expression on any number of lines with messages between them, and the messages
after it. Its parentheses balance. -/
structure SymRecord (chars : CharClass) where
  key : List Char
  first : List Char
  rest : List (List (List Char) × List Char)
  after : List (List Char)
  key_ne : key ≠ []
  key_chars : ∀ c ∈ key, chars.space c = false ∧ c ≠ '\n'
  first_line : '\n' ∉ first
  messages : ∀ line ∈ rest.flatMap Prod.fst ++ after, IsMessage line
  pieces : ∀ line ∈ rest.map Prod.snd, IsPiece line
  balanced : (key ++ first ++ (rest.map Prod.snd).flatten).count '(' =
    (key ++ first ++ (rest.map Prod.snd).flatten).count ')'

/-- Lines are put together with blanks. -/
def joinLines (chars : CharClass) (text : List Char) (lines : List (List Char)) : List Char :=
  lines.foldl (fun text line => text ++ ' ' :: stripBlanks chars line) text

namespace SymRecord

variable {chars : CharClass}

/-- The beginning of the first line. -/
def start (r : SymRecord chars) : List Char := symStart ++ (r.key ++ symColons)

/-- The first line. -/
def head (r : SymRecord chars) : List Char := r.start ++ r.first

/-- The other lines of the expression. -/
def others (r : SymRecord chars) : List (List Char) := r.rest.map Prod.snd

/-- The lines in the log. -/
def lines (r : SymRecord chars) : List (List Char) :=
  r.head :: (r.rest.flatMap fun part => part.1 ++ [part.2]) ++ r.after

/-- **The full expression.** -/
def expression (r : SymRecord chars) : List Char := stripBlanks chars (joinLines chars r.first r.others)

end SymRecord

/-- **A log**: messages, then records, and perhaps the end of the last line. -/
structure SymLog (chars : CharClass) where
  messages : List (List Char)
  records : List (SymRecord chars)
  newline : Bool
  isMessage : ∀ line ∈ messages, IsMessage line

namespace SymLog

variable {chars : CharClass}

/-- The lines of a log. -/
def lines (log : SymLog chars) : List (List Char) :=
  log.messages ++ log.records.flatMap SymRecord.lines ++ if log.newline then [[]] else []

/-- The text of a log. -/
def text (log : SymLog chars) : List Char := ['\n'].intercalate log.lines

/-- The keys and full expressions of the records. -/
def pairs (log : SymLog chars) : List (List Char × List Char) := log.records.map fun r => (r.key, r.expression)

/-- The different expressions of a key, in the order in which they come first. -/
def valuesOf (log : SymLog chars) (key : List Char) : List (List Char) :=
  ((log.pairs.filter fun pair => pair.1 = key).map Prod.snd).eraseDups

/-- The free-call counts that are numbers. -/
def counts (log : SymLog chars) (digits : DigitClass) : List String :=
  ((log.valuesOf freeCallCounts).map String.ofList).filter digits.isDigits

/-- **What is to be recovered**: every record with its full expression, once and in order; for every key its
different expressions; and the greatest free-call count under its own key. -/
structure Recovered (digits : DigitClass) (log : SymLog chars) (out : SymValues) : Prop where
  records : readRecords chars (scanLog chars log.text) = log.pairs
  values : ∀ key, out.values.get? key =
    if key = freeCallCounts ∨ key ∉ log.pairs.map Prod.fst then none else some (log.valuesOf key)
  filed : ∃ numbers, (log.counts digits).mapM digits.int = some numbers ∧
    out.written = numbers.max?.map fun most => (freeCallCounts, most)

end SymLog

/-! ## What the loop makes of a record -/

/-- A line does not begin in two ways. -/
theorem beginsWith_other {text text' : String} {line : List Char} (h : beginsWith text line = true)
    (hother : ¬ text'.toList <+: text.toList ∧ ¬ text.toList <+: text'.toList) : beginsWith text' line = false := by
  rw [beginsWith, List.isPrefixOf_iff_prefix] at h
  rw [beginsWith, Bool.eq_false_iff, Ne, List.isPrefixOf_iff_prefix]
  intro h'
  exact (List.prefix_or_prefix_of_prefix h' h).elim hother.1 hother.2

/-- What begins with a blank is no record. -/
theorem symValue?_blank {chars : CharClass} {line : List Char} (h : line.head? = some ' ') :
    symValue? chars line = none := by
  obtain ⟨rest, rfl⟩ := List.head?_eq_some_iff.mp h
  have hprefix : symStart.isPrefixOf (' ' :: rest) = false := by simp [symStart, List.isPrefixOf]
  simp only [symValue?, hprefix, Bool.false_eq_true, if_false]


/-- The lines up to the first at whose end the parentheses balance, and the lines after it. -/
def splitBalanced (left right : Nat) : List (List Char) → List (List Char) × List (List Char)
  | [] => ([], [])
  | line :: lines =>
    let left := left + line.count '('
    let right := right + line.count ')'
    if left = right then ([line], lines)
    else
      let (taken, leftover) := splitBalanced left right lines
      (line :: taken, leftover)

/-- **The lines of a record that the loop leaves out**: those after the first at whose end the parentheses
balance. -/
def SymRecord.leftover {chars : CharClass} (r : SymRecord chars) : List (List Char) :=
  if r.head.count '(' = r.head.count ')' then r.others
  else (splitBalanced (r.head.count '(') (r.head.count ')') r.others).2

section Scan

variable {chars : CharClass}

/-- A message of the program between two records is passed over, whatever has been read so far. -/
theorem step_message (scan : LogScan) {line : List Char} (h : IsMessage line) : scan.step chars line = scan := by
  have hsym : beginsWith "SYM VALUE" line = false := beginsWith_other h.1 (by decide)
  have hbase : beginsWith "Base Address" line = false := beginsWith_other h.1 (by decide)
  simp only [LogScan.step, hsym, hbase, h.1, Bool.false_eq_true, if_false, if_true]

/-- So is any number of messages. -/
theorem foldl_messages (scan : LogScan) {lines : List (List Char)} (h : ∀ line ∈ lines, IsMessage line) :
    lines.foldl (LogScan.step chars) scan = scan := by
  induction lines with
  | nil => rfl
  | cons line lines ih =>
    rw [List.foldl_cons, step_message scan (h line List.mem_cons_self)]
    exact ih fun l hl => h l (List.mem_cons_of_mem line hl)

/-- Messages between the lines of a record do not count. -/
theorem foldl_rest (scan : LogScan) {rest : List (List (List Char) × List Char)}
    (h : ∀ line ∈ rest.flatMap Prod.fst, IsMessage line) :
    (rest.flatMap fun part => part.1 ++ [part.2]).foldl (LogScan.step chars) scan =
      (rest.map Prod.snd).foldl (LogScan.step chars) scan := by
  induction rest generalizing scan with
  | nil => rfl
  | cons part rest ih =>
    rw [List.flatMap_cons] at h
    rw [List.flatMap_cons, List.foldl_append, List.foldl_append, List.map_cons, List.foldl_cons,
      foldl_messages scan fun l hl => h l (List.mem_append_left _ hl)]
    exact ih _ fun l hl => h l (List.mem_append_right _ hl)

/-- A line in the middle of a record. -/
theorem step_piece (scan : LogScan) {line : List Char} (h : IsPiece line) :
    scan.step chars line =
      if scan.globalLeft + line.count '(' = scan.globalRight + line.count ')' then
        { scan with
          processedLines := scan.processedLines ++ [scan.buffer ++ ' ' :: stripBlanks chars line], buffer := []
          globalLeft := scan.globalLeft + line.count '(', globalRight := scan.globalRight + line.count ')' }
      else
        { scan with
          buffer := scan.buffer ++ ' ' :: stripBlanks chars line
          globalLeft := scan.globalLeft + line.count '(', globalRight := scan.globalRight + line.count ')' } := by
  simp only [LogScan.step, h.1, h.2.1, h.2.2.1, Bool.false_eq_true, if_false]

/-- Between records: nothing is left in the buffer and the counts agree. -/
def LogScan.Idle (scan : LogScan) : Prop := scan.buffer = [] ∧ scan.globalLeft = scan.globalRight

/-- The counts after some lines. -/
theorem foldl_pieces_counts {lines : List (List Char)} (h : ∀ line ∈ lines, IsPiece line) (scan : LogScan) :
    (lines.foldl (LogScan.step chars) scan).globalLeft = scan.globalLeft + lines.flatten.count '(' ∧
      (lines.foldl (LogScan.step chars) scan).globalRight = scan.globalRight + lines.flatten.count ')' ∧
      (lines.foldl (LogScan.step chars) scan).baseAddress = scan.baseAddress := by
  induction lines generalizing scan with
  | nil => exact ⟨rfl, rfl, rfl⟩
  | cons line lines ih =>
    obtain ⟨hleft, hright, hbase⟩ := ih (fun l hl => h l (List.mem_cons_of_mem line hl)) (scan.step chars line)
    have hstep := @step_piece chars scan line (h line List.mem_cons_self)
    rw [List.foldl_cons, hleft, hright, hbase, hstep, List.flatten_cons, List.count_append, List.count_append]
    split <;> exact ⟨Nat.add_assoc _ _ _, Nat.add_assoc _ _ _, rfl⟩

/-- **Lines that are left over** are read as nothing: what they flush begins with a blank. -/
theorem foldl_leftover {lines : List (List Char)} (h : ∀ line ∈ lines, IsPiece line) {scan : LogScan}
    (hbuffer : scan.buffer = [] ∨ scan.buffer.head? = some ' ') :
    readRecords chars (lines.foldl (LogScan.step chars) scan) = readRecords chars scan := by
  induction lines generalizing scan with
  | nil => rfl
  | cons line lines ih =>
    have hblank : ∀ text, (scan.buffer ++ ' ' :: text).head? = some ' ' := by
      intro text
      rcases hbuffer with hnil | hhead
      · rw [hnil]
        rfl
      · obtain ⟨front, hfront⟩ := List.head?_eq_some_iff.mp hhead
        rw [hfront]
        rfl
    rw [List.foldl_cons, step_piece scan (h line List.mem_cons_self)]
    have hpieces : ∀ l ∈ lines, IsPiece l := fun l hl => h l (List.mem_cons_of_mem line hl)
    split
    · refine (ih hpieces (.inl rfl)).trans ?_
      simp [readRecords, List.filterMap_append, symValue?_blank (hblank _)]
    · exact ih hpieces (.inr (hblank _))

/-- Cutting the lines where the brackets balance loses no line. -/
theorem splitBalanced_append (left right : Nat) (lines : List (List Char)) :
    (splitBalanced left right lines).1 ++ (splitBalanced left right lines).2 = lines := by
  induction lines generalizing left right with
  | nil => rfl
  | cons line lines ih =>
    rw [splitBalanced]
    split
    · rfl
    · exact congrArg (line :: ·) (ih _ _)

/-- **Lines up to the first balance** are put together into one line. -/
theorem foldl_balanced {lines : List (List Char)} (h : ∀ line ∈ lines, IsPiece line) {scan : LogScan}
    (hopen : scan.globalLeft ≠ scan.globalRight)
    (htotal : scan.globalLeft + lines.flatten.count '(' = scan.globalRight + lines.flatten.count ')') :
    ∃ n, lines.foldl (LogScan.step chars) scan =
      (splitBalanced scan.globalLeft scan.globalRight lines).2.foldl (LogScan.step chars)
        ⟨scan.processedLines ++
            [joinLines chars scan.buffer (splitBalanced scan.globalLeft scan.globalRight lines).1],
          scan.baseAddress, [], n, n⟩ := by
  induction lines generalizing scan with
  | nil => exact absurd htotal hopen
  | cons line lines ih =>
    rw [List.foldl_cons, step_piece scan (h line List.mem_cons_self), splitBalanced]
    by_cases hbalance : scan.globalLeft + line.count '(' = scan.globalRight + line.count ')'
    · refine ⟨scan.globalLeft + line.count '(', ?_⟩
      rw [if_pos hbalance, if_pos hbalance, ← hbalance]
      rfl
    · rw [if_neg hbalance, if_neg hbalance]
      rw [List.flatten_cons, List.count_append, List.count_append, ← Nat.add_assoc, ← Nat.add_assoc] at htotal
      exact ih (fun l hl => h l (List.mem_cons_of_mem line hl)) hbalance htotal

/-- Joining lines to a text leaves what stood in front of it. -/
theorem joinLines_append (front text : List Char) (lines : List (List Char)) :
    joinLines chars (front ++ text) lines = front ++ joinLines chars text lines := by
  induction lines generalizing text with
  | nil => rfl
  | cons line lines ih =>
    rw [joinLines, joinLines, List.foldl_cons, List.foldl_cons, List.append_assoc]
    exact ih _

/-- Joined lines are one line. -/
theorem newline_notMem_joinLines {text : List Char} (htext : '\n' ∉ text) {lines : List (List Char)}
    (h : ∀ line ∈ lines, IsPiece line) : '\n' ∉ joinLines chars text lines := by
  induction lines generalizing text with
  | nil => exact htext
  | cons line lines ih =>
    refine @ih (text ++ ' ' :: stripBlanks chars line) ?_ fun l hl => h l (List.mem_cons_of_mem line hl)
    intro hmem
    rcases List.mem_append.mp hmem with hmem | hmem
    · exact htext hmem
    · rcases List.mem_cons.mp hmem with heq | hmem
      · exact absurd heq (by decide)
      · exact (h line List.mem_cons_self).2.2.2 (mem_stripBlanks hmem)

/-! ## The lines of a record -/

/-- The lines of a record that are put together, after the first one. -/
def SymRecord.taken (r : SymRecord chars) : List (List Char) :=
  if r.head.count '(' = r.head.count ')' then []
  else (splitBalanced (r.head.count '(') (r.head.count ')') r.others).1

/-- The lines that are taken for a record, and those that are left over, are its lines behind the
first. -/
theorem SymRecord.taken_append (r : SymRecord chars) : r.taken ++ r.leftover = r.others := by
  unfold taken leftover
  split
  · rfl
  · exact splitBalanced_append _ _ _

/-- The brackets of the first line are those of the key and of what stands behind it: the fixed
words have none. -/
theorem SymRecord.head_count (r : SymRecord chars) {c : Char} (hc : c = '(' ∨ c = ')') :
    r.head.count c = (r.key ++ r.first).count c := by
  have hstart : symStart.count c = 0 := by rcases hc with rfl | rfl <;> decide +kernel
  have hcolons : symColons.count c = 0 := by rcases hc with rfl | rfl <;> decide +kernel
  simp only [head, start, List.count_append, hstart, hcolons, Nat.zero_add, Nat.add_zero]

/-- **Reading a record's line**: its key, and what follows. -/
theorem symValue?_start (r : SymRecord chars) {text : List Char} (htext : '\n' ∉ text) :
    symValue? chars (r.start ++ text) = some (r.key, stripBlanks chars text) := by
  have hsplit : r.start ++ text = symStart ++ (r.key ++ (symColons ++ text)) := by
    simp only [SymRecord.start, List.append_assoc]
  have hkey : (r.key ++ (symColons ++ text)).takeWhile (fun c => !chars.space c) = r.key := by
    have hspace : chars.space ' ' = true := chars.space_ascii ' ' (by decide)
    rw [List.takeWhile_append_of_pos fun c hc => by rw [(r.key_chars c hc).1]; rfl]
    have hstop : (symColons ++ text).takeWhile (fun c => !chars.space c) = [] := by
      simp [symColons, hspace]
    rw [hstop, List.append_nil]
  have hline : text.takeWhile (fun c => decide (c ≠ '\n')) = text := by
    refine List.takeWhile_eq_self_iff.mpr fun c hc => ?_
    refine decide_eq_true ?_
    rintro rfl
    exact htext hc
  have hprefix : symStart.isPrefixOf (symStart ++ (r.key ++ (symColons ++ text))) = true :=
    List.isPrefixOf_iff_prefix.mpr (List.prefix_append _ _)
  have hcolons : symColons.isPrefixOf (symColons ++ text) = true :=
    List.isPrefixOf_iff_prefix.mpr (List.prefix_append _ _)
  rw [hsplit, symValue?, if_pos hprefix]
  simp only [List.drop_left, hkey, ne_eq, r.key_ne, not_false_eq_true, hcolons, and_self, if_true, hline]

/-- Where the counts agree after some lines, nothing is left in the buffer: the last of them flushes it. -/
theorem foldl_pieces_idle {lines : List (List Char)} (h : ∀ line ∈ lines, IsPiece line) {scan : LogScan}
    (hbuffer : scan.buffer = [])
    (hfinal : (lines.foldl (LogScan.step chars) scan).globalLeft =
      (lines.foldl (LogScan.step chars) scan).globalRight) :
    (lines.foldl (LogScan.step chars) scan).Idle := by
  refine ⟨?_, hfinal⟩
  rcases List.eq_nil_or_concat lines with rfl | ⟨front, line, rfl⟩
  · exact hbuffer
  · have hline : IsPiece line := h line (by simp)
    rw [List.concat_eq_append, List.foldl_append, List.foldl_cons, List.foldl_nil, step_piece _ hline] at hfinal ⊢
    split at hfinal
    · rename_i hbalance
      rw [if_pos hbalance]
    · rename_i hbalance
      exact absurd hfinal hbalance

/-- The lines of a record without its messages. -/
theorem foldl_lines (r : SymRecord chars) (scan : LogScan) :
    r.lines.foldl (LogScan.step chars) scan = r.others.foldl (LogScan.step chars) (scan.step chars r.head) := by
  rw [SymRecord.lines, List.foldl_append, List.foldl_cons,
    foldl_rest _ fun l hl => r.messages l (List.mem_append_left _ hl),
    foldl_messages _ fun l hl => r.messages l (List.mem_append_right _ hl), SymRecord.others]

/-- The first line of a record begins with the words by which the reader knows it. -/
theorem SymRecord.head_begins (r : SymRecord chars) : beginsWith "SYM VALUE" r.head = true := by
  have hstart : beginsWith "SYM VALUE" symStart = true := by decide +kernel
  unfold beginsWith at hstart ⊢
  rw [List.isPrefixOf_iff_prefix] at hstart ⊢
  exact hstart.trans ((List.prefix_append _ _).trans (List.prefix_append _ _))

/-- Over all lines of a record there are as many opening as closing brackets. -/
theorem SymRecord.total_balanced (r : SymRecord chars) :
    r.head.count '(' + r.others.flatten.count '(' = r.head.count ')' + r.others.flatten.count ')' := by
  have hbalanced := r.balanced
  rw [r.head_count (.inl rfl), r.head_count (.inr rfl), SymRecord.others, ← List.count_append, ← List.count_append]
  exact hbalanced

/-- **A record** is read up to its first balance, and leaves nothing behind. -/
theorem foldl_record (r : SymRecord chars) {scan : LogScan} (hidle : scan.Idle) :
    (r.lines.foldl (LogScan.step chars) scan).Idle ∧
      (r.lines.foldl (LogScan.step chars) scan).baseAddress = scan.baseAddress ∧
      readRecords chars (r.lines.foldl (LogScan.step chars) scan) =
        readRecords chars scan ++ [(r.key, stripBlanks chars (joinLines chars r.first r.taken))] := by
  have hothers : ∀ line ∈ r.others, IsPiece line := r.pieces
  have htaken : ∀ line ∈ r.taken, IsPiece line := fun line hline =>
    hothers line (r.taken_append ▸ List.mem_append_left _ hline)
  have hleftover : ∀ line ∈ r.leftover, IsPiece line := fun line hline =>
    hothers line (r.taken_append ▸ List.mem_append_right _ hline)
  have hread : symValue? chars (joinLines chars r.head r.taken) =
      some (r.key, stripBlanks chars (joinLines chars r.first r.taken)) := by
    rw [SymRecord.head, joinLines_append]
    exact symValue?_start r (newline_notMem_joinLines r.first_line htaken)
  have htotal := r.total_balanced
  -- after the line that is read, the lines left over are read from an empty buffer and equal counts
  have hrun : ∃ n, r.lines.foldl (LogScan.step chars) scan = r.leftover.foldl (LogScan.step chars)
      ⟨scan.processedLines ++ [joinLines chars r.head r.taken], scan.baseAddress, [], n, n⟩ := by
    rw [foldl_lines]
    unfold SymRecord.taken SymRecord.leftover
    by_cases hhead : r.head.count '(' = r.head.count ')'
    · refine ⟨0, ?_⟩
      simp only [LogScan.step, r.head_begins, hhead, if_true, hidle.1, joinLines, List.foldl_nil]
    · have hstep : scan.step chars r.head =
          { scan with buffer := r.head, globalLeft := r.head.count '(', globalRight := r.head.count ')' } := by
        simp only [LogScan.step, r.head_begins, hhead, if_true, if_false]
      rw [hstep, if_neg hhead, if_neg hhead]
      exact foldl_balanced hothers hhead htotal
  obtain ⟨n, hrun⟩ := hrun
  obtain ⟨hleft, hright, hbase⟩ := @foldl_pieces_counts chars r.others hothers (scan.step chars r.head)
  have hfinal : (r.lines.foldl (LogScan.step chars) scan).globalLeft =
      (r.lines.foldl (LogScan.step chars) scan).globalRight := by
    rw [foldl_lines, hleft, hright]
    simp only [LogScan.step, r.head_begins, if_true]
    split
    · rename_i hhead
      simp only [Nat.zero_add]
      omega
    · exact htotal
  refine ⟨?_, ?_, ?_⟩
  · rw [hrun] at hfinal ⊢
    exact foldl_pieces_idle hleftover rfl hfinal
  · rw [hrun]
    exact (foldl_pieces_counts hleftover _).2.2
  · rw [hrun, foldl_leftover hleftover (.inl rfl), readRecords, List.filterMap_append]
    simp only [List.filterMap_cons, List.filterMap_nil, hread, readRecords]

/-- What is read of a record. -/
def SymRecord.read (r : SymRecord chars) : List Char × List Char :=
  (r.key, stripBlanks chars (joinLines chars r.first r.taken))

/-- **All records**, one after another. -/
theorem foldl_records (records : List (SymRecord chars)) {scan : LogScan} (hidle : scan.Idle) :
    ((records.flatMap SymRecord.lines).foldl (LogScan.step chars) scan).Idle ∧
      ((records.flatMap SymRecord.lines).foldl (LogScan.step chars) scan).baseAddress = scan.baseAddress ∧
      readRecords chars ((records.flatMap SymRecord.lines).foldl (LogScan.step chars) scan) =
        readRecords chars scan ++ records.map SymRecord.read := by
  induction records generalizing scan with
  | nil => exact ⟨hidle, rfl, (List.append_nil _).symm⟩
  | cons r records ih =>
    obtain ⟨hidle', hbase', hread'⟩ := foldl_record r hidle
    obtain ⟨hidle'', hbase'', hread''⟩ := ih hidle'
    rw [List.flatMap_cons, List.foldl_append]
    refine ⟨hidle'', hbase''.trans hbase', ?_⟩
    rw [hread'', hread', List.map_cons, List.append_assoc]
    rfl

/-- The empty line at the end is read as nothing. -/
theorem step_empty {scan : LogScan} (hidle : scan.Idle) :
    (scan.step chars []).baseAddress = scan.baseAddress ∧
      readRecords chars (scan.step chars []) = readRecords chars scan := by
  have hpiece : IsPiece [] := by
    refine ⟨?_, ?_, ?_, List.not_mem_nil⟩ <;> decide +kernel
  have hflush : symValue? chars (scan.buffer ++ ' ' :: stripBlanks chars []) = none := by
    rw [hidle.1]
    exact symValue?_blank rfl
  rw [step_piece scan hpiece, List.count_nil, List.count_nil, Nat.add_zero, Nat.add_zero, if_pos hidle.2]
  refine ⟨rfl, ?_⟩
  simp only [readRecords, List.filterMap_append, List.filterMap_cons, List.filterMap_nil, hflush, List.append_nil]

/-- No line of a record holds a line break. -/
theorem SymRecord.newline_notMem (r : SymRecord chars) : ∀ line ∈ r.lines, '\n' ∉ line := by
  have hmessage : ∀ {line}, IsMessage line → '\n' ∉ line := fun h => h.2
  have hhead : '\n' ∉ r.head := by
    have hstart : '\n' ∉ symStart := by decide +kernel
    have hcolons : '\n' ∉ symColons := by decide +kernel
    have hkey : '\n' ∉ r.key := fun h => (r.key_chars _ h).2 rfl
    simp only [SymRecord.head, SymRecord.start, List.mem_append, hstart, hkey, hcolons, r.first_line, or_self,
      not_false_eq_true]
  intro line hline
  rw [SymRecord.lines, List.mem_append, List.mem_cons, List.mem_flatMap] at hline
  rcases hline with (rfl | ⟨part, hpart, hline⟩) | hline
  · exact hhead
  · rcases List.mem_append.mp hline with hline | hline
    · exact hmessage (r.messages _ (List.mem_append_left _ (List.mem_flatMap_of_mem hpart hline)))
    · rw [List.mem_singleton.mp hline]
      exact (r.pieces _ (List.mem_map_of_mem hpart)).2.2.2
  · exact hmessage (r.messages _ (List.mem_append_right _ hline))

/-- **What the loop reads of a log.** -/
theorem scanLog_text (log : SymLog chars) :
    (scanLog chars log.text).baseAddress = [] ∧
      readRecords chars (scanLog chars log.text) = log.records.map SymRecord.read := by
  obtain ⟨hidle, hbase, hread⟩ :=
    @foldl_records chars log.records ⟨[], [], [], 0, 0⟩ ⟨rfl, rfl⟩
  obtain ⟨hbase', hread'⟩ := @step_empty chars _ hidle
  have hnewline : ∀ line ∈ log.lines, '\n' ∉ line := by
    intro line hline
    rw [SymLog.lines, List.mem_append, List.mem_append, List.mem_flatMap] at hline
    rcases hline with (hline | ⟨r, hr, hline⟩) | hline
    · exact (log.isMessage line hline).2
    · exact r.newline_notMem line hline
    · split at hline
      · rw [List.mem_singleton.mp hline]
        exact List.not_mem_nil
      · exact absurd hline List.not_mem_nil
  have hfold : log.lines.foldl (LogScan.step chars) ⟨[], [], [], 0, 0⟩ =
      (if log.newline then [[]] else []).foldl (LogScan.step chars)
        ((log.records.flatMap SymRecord.lines).foldl (LogScan.step chars) ⟨[], [], [], 0, 0⟩) := by
    rw [SymLog.lines, List.foldl_append, List.foldl_append, foldl_messages _ log.isMessage]
  have hempty : scanLog chars [] = LogScan.step chars ⟨[], [], [], 0, 0⟩ [] := by
    rw [scanLog, List.splitOn_nil]
    rfl
  unfold SymLog.text
  by_cases hlines : log.lines = []
  · -- the empty log is read as one empty line
    have hrecords : log.records = [] := by
      rw [SymLog.lines, List.append_eq_nil_iff, List.append_eq_nil_iff] at hlines
      cases hlist : log.records with
      | nil => rfl
      | cons r records =>
        rw [hlist] at hlines
        exact absurd hlines.1.2 (by simp [SymRecord.lines])
    rw [hrecords] at hbase' hread' ⊢
    rw [hlines, List.intercalate_nil, hempty]
    exact ⟨hbase', hread'⟩
  · rw [scanLog, List.splitOn_intercalate _ hnewline hlines, hfold]
    split
    · exact ⟨hbase'.trans hbase, hread'.trans hread⟩
    · exact ⟨hbase, hread⟩

/-! ## Blanks -/

/-- **What may be left out of a text**: lines of blanks. -/
theorem stripBlanks_joinLines (text : List Char) (lines : List (List Char)) :
    stripBlanks chars (joinLines chars text lines) = stripBlanks chars text ↔
      ∀ line ∈ lines, ∀ c ∈ line, chars.space c = true := by
  have hcount : ∀ (lines : List (List Char)) (text : List Char),
      (joinLines chars text lines).countP (fun c => !chars.space c) =
        text.countP (fun c => !chars.space c) + lines.flatten.countP fun c => !chars.space c := by
    have hspace : chars.space ' ' = true := chars.space_ascii ' ' (by decide)
    intro lines
    induction lines with
    | nil => exact fun text => rfl
    | cons line lines ih =>
      intro text
      refine (ih (text ++ ' ' :: stripBlanks chars line)).trans ?_
      rw [List.countP_append, List.countP_cons_of_neg (by rw [hspace]; decide), countP_stripBlanks, List.flatten_cons,
        List.countP_append, Nat.add_assoc]
  constructor
  · intro h line hline c hc
    have hequal := congrArg (List.countP fun c => !chars.space c) h
    rw [countP_stripBlanks, countP_stripBlanks, hcount, Nat.add_eq_left, List.countP_eq_zero] at hequal
    simpa using hequal c (List.mem_flatten_of_mem hline hc)
  · intro h
    induction lines generalizing text with
    | nil => rfl
    | cons line lines ih =>
      refine (ih (text ++ ' ' :: stripBlanks chars line) fun l hl => h l (List.mem_cons_of_mem line hl)).trans ?_
      rw [stripBlanks_eq_nil (h line List.mem_cons_self)]
      have hspace : chars.space ' ' = true := chars.space_ascii ' ' (by decide)
      exact stripBlanks_append (by simpa using hspace) text

/-- **What is read of a record is its full expression** where nothing but blanks is left over. -/
theorem SymRecord.read_eq_iff (r : SymRecord chars) :
    r.read = (r.key, r.expression) ↔ ∀ line ∈ r.leftover, ∀ c ∈ line, chars.space c = true := by
  rw [← stripBlanks_joinLines (joinLines chars r.first r.taken) r.leftover, SymRecord.read, SymRecord.expression,
    ← r.taken_append, joinLines, joinLines, joinLines, List.foldl_append, Prod.mk.injEq, eq_comm (a := stripBlanks _ _)]
  exact and_iff_right rfl

end Scan

/-! ## The values by their keys -/

/-- A value at the end of a list counts as new unless it was there before. -/
theorem eraseDups_concat {α : Type*} [BEq α] [LawfulBEq α] [DecidableEq α] (front : List α) (last : α) :
    (front ++ [last]).eraseDups = if last ∈ front then front.eraseDups else front.eraseDups ++ [last] := by
  rw [List.eraseDups_append]
  by_cases hmem : last ∈ front
  · simp [List.removeAll, hmem]
  · simp [List.removeAll, hmem, List.eraseDups_cons]

/-- The loop of `extract_values`, with the last pair outside. -/
theorem extractValues_concat (pairs : List (List Char × List Char)) (pair : List Char × List Char) :
    extractValues (pairs ++ [pair]) = (extractValues pairs).insert pair.1
      (if pair.2 ∈ ((extractValues pairs).get? pair.1).getD [] then ((extractValues pairs).get? pair.1).getD []
        else ((extractValues pairs).get? pair.1).getD [] ++ [pair.2]) := by
  unfold extractValues
  rw [List.foldl_append]
  simp only [List.foldl_cons, List.foldl_nil, List.contains_eq_mem, decide_eq_true_eq]

/-- **The keys**, in the order in which they come first. -/
theorem extractValues_keys (pairs : List (List Char × List Char)) :
    (extractValues pairs).keys = (pairs.map Prod.fst).eraseDups := by
  induction pairs using List.reverseRecOn with
  | nil => rfl
  | append_singleton pairs pair ih =>
    have hmem : pair.1 ∈ (extractValues pairs).keys ↔ pair.1 ∈ pairs.map Prod.fst := by rw [ih, List.mem_eraseDups]
    rw [extractValues_concat, Dict.keys_insert, List.map_append, List.map_singleton, eraseDups_concat, ih]
    rw [ih] at hmem
    simp only [hmem]

/-- **The values of a key**, in the order in which they come first. -/
theorem extractValues_get? (pairs : List (List Char × List Char)) (key : List Char) :
    (extractValues pairs).get? key =
      if key ∈ pairs.map Prod.fst then some ((pairs.filter fun pair => pair.1 = key).map Prod.snd).eraseDups
      else none := by
  induction pairs using List.reverseRecOn with
  | nil => rfl
  | append_singleton pairs pair ih =>
    rw [extractValues_concat, Dict.get?_insert]
    by_cases hkey : key = pair.1
    · subst hkey
      have hvalues : ((extractValues pairs).get? pair.1).getD [] =
          ((pairs.filter fun p => p.1 = pair.1).map Prod.snd).eraseDups := by
        rw [ih]
        split
        · rfl
        · rename_i hkey
          rw [List.filter_eq_nil_iff.mpr fun p hp => by
            rw [decide_eq_true_eq]
            exact fun heq => hkey (heq ▸ List.mem_map_of_mem hp)]
          rfl
      have hown : [pair].filter (fun p => decide (p.1 = pair.1)) = [pair] := by simp
      have hmem : pair.1 ∈ (pairs ++ [pair]).map Prod.fst := by simp
      rw [if_pos rfl, if_pos hmem, hvalues, List.filter_append, List.map_append, hown, List.map_singleton,
        eraseDups_concat]
      simp only [List.mem_eraseDups]
    · have hother : [pair].filter (fun p => decide (p.1 = key)) = [] := by
        simpa using fun heq => hkey heq.symm
      have hmem : key ∈ (pairs ++ [pair]).map Prod.fst ↔ key ∈ pairs.map Prod.fst := by
        rw [List.map_append, List.mem_append, List.map_singleton, List.mem_singleton]
        exact or_iff_left hkey
      rw [if_neg hkey, ih, List.filter_append, hother, List.append_nil]
      simp only [hmem]

/-- What comes out of a log, given the pairs that are read of it. -/
theorem processSymValues_text {chars : CharClass} (digits : DigitClass) (log : SymLog chars)
    (hpairs : readRecords chars (scanLog chars log.text) = log.pairs) :
    processSymValues chars digits log.text =
      ((log.counts digits).mapM digits.int).map fun numbers =>
        { values := (extractValues log.pairs).without freeCallCounts
          addresses := []
          written := numbers.max?.bind fun most =>
            (log.pairs.map Prod.fst).eraseDups.getLast?.map fun key => (key, most) } := by
  have hcounts : ((extractValues log.pairs).get? freeCallCounts).getD [] = log.valuesOf freeCallCounts := by
    rw [extractValues_get?, SymLog.valuesOf]
    split
    · rfl
    · rename_i hkey
      rw [List.filter_eq_nil_iff.mpr fun p hp => by
        rw [decide_eq_true_eq]
        exact fun heq => hkey (heq ▸ List.mem_map_of_mem hp)]
      rfl
  have haddresses : extractBaseAddress digits [] = some [] := rfl
  simp only [processSymValues, hpairs, (scanLog_text log).1, haddresses, Option.bind_some, hcounts, SymLog.counts,
    extractValues_keys]

/-- A map that may fail goes through a list exactly if it fails at no entry. -/
theorem mapM_isSome {α β : Type*} (f : α → Option β) (l : List α) :
    (l.mapM f).isSome ↔ ∀ a ∈ l, (f a).isSome := by
  induction l with
  | nil => simp
  | cons a l ih =>
    rw [List.forall_mem_cons, ← ih, List.mapM_cons]
    cases f a <;> cases l.mapM f <;> simp

/-- The number is filed under the key when there is none, or when that key is the last. -/
theorem filed_iff {texts : List String} {f : String → Option Nat} {numbers : List Nat} (last : Option (List Char))
    (h : texts.mapM f = some numbers) (key : List Char) :
    (numbers.max?.bind fun most => last.map fun last => (last, most)) = (numbers.max?.map fun most => (key, most)) ↔
      (texts ≠ [] → last = some key) := by
  cases texts with
  | nil =>
    obtain rfl : [] = numbers := Option.some.inj h
    simp
  | cons text texts =>
    rw [List.mapM_cons] at h
    obtain ⟨n, -, ns, -, rfl⟩ : ∃ n, f text = some n ∧ ∃ ns, texts.mapM f = some ns ∧ n :: ns = numbers := by
      simpa [Option.bind_eq_bind, Option.bind_eq_some_iff] using h
    rw [List.max?_cons']
    cases last <;> simp

/-- **When the log is recovered**: what a record has after its parentheses first balance is blank; the counts
can be read; and no key comes first after `free_call_counts`, where it has counts. -/
theorem processSymValues_iff {chars : CharClass} (digits : DigitClass) (log : SymLog chars) :
    (∃ out, processSymValues chars digits log.text = some out ∧ log.Recovered digits out) ↔
      (∀ r ∈ log.records, ∀ line ∈ r.leftover, ∀ c ∈ line, chars.space c = true) ∧
        (∀ t ∈ log.counts digits, (digits.int t).isSome) ∧
        (log.counts digits ≠ [] → (log.pairs.map Prod.fst).eraseDups.getLast? = some freeCallCounts) := by
  have hrecords : readRecords chars (scanLog chars log.text) = log.pairs ↔
      ∀ r ∈ log.records, ∀ line ∈ r.leftover, ∀ c ∈ line, chars.space c = true := by
    rw [(scanLog_text log).2, SymLog.pairs, List.map_inj_left]
    exact forall₂_congr fun r _ => r.read_eq_iff
  rw [← hrecords, ← mapM_isSome]
  constructor
  · rintro ⟨out, hout, h⟩
    refine ⟨h.records, ?_⟩
    obtain ⟨numbers, hnumbers, hwritten⟩ := h.filed
    rw [processSymValues_text digits log h.records, hnumbers] at hout
    obtain rfl := Option.some.inj hout
    refine ⟨by rw [hnumbers]; rfl, fun hcounts => ?_⟩
    exact (filed_iff _ hnumbers freeCallCounts).mp hwritten hcounts
  · rintro ⟨hpairs, hsome, hlast⟩
    obtain ⟨numbers, hnumbers⟩ := Option.isSome_iff_exists.mp hsome
    rw [processSymValues_text digits log hpairs, hnumbers]
    refine ⟨_, rfl, hpairs, fun key => ?_, numbers, hnumbers, ?_⟩
    · rw [Dict.get?_without, extractValues_get?]
      by_cases hkey : key = freeCallCounts
      · rw [if_pos hkey, if_pos (.inl hkey)]
      · rw [if_neg hkey]
        by_cases hmem : key ∈ log.pairs.map Prod.fst
        · rw [if_pos hmem, if_neg (by simp only [hkey, hmem, not_true_eq_false, or_self, not_false_eq_true])]
          rfl
        · rw [if_neg hmem, if_pos (.inr hmem)]
    · exact (filed_iff _ hnumbers freeCallCounts).mpr hlast

/-- A key without blanks and line breaks, character by character. -/
theorem keyChars_of_all {chars : CharClass} {key : List Char}
    (h : key.all (fun c => !chars.space c && c != '\n') = true) :
    ∀ c ∈ key, chars.space c = false ∧ c ≠ '\n' := by
  intro c hc
  simpa using List.all_eq_true.mp h c hc

/-- A free-call count, and after it a value of another key. -/
def countThenValue : SymLog .ascii where
  messages := []
  records := [
    { key := freeCallCounts, first := " 3".toList, rest := [], after := ["KLEE: done".toList]
      key_ne := by decide +kernel, key_chars := keyChars_of_all (by decide +kernel), first_line := by decide +kernel
      messages := by
        intro line hline
        obtain rfl := List.mem_singleton.mp hline
        exact ⟨by decide +kernel, by decide +kernel⟩
      pieces := fun _ h => absurd h List.not_mem_nil, balanced := by decide +kernel },
    { key := ['x'], first := " (Add w32 1 2)".toList, rest := [], after := []
      key_ne := by decide +kernel, key_chars := keyChars_of_all (by decide +kernel), first_line := by decide +kernel
      messages := fun _ h => absurd h List.not_mem_nil
      pieces := fun _ h => absurd h List.not_mem_nil, balanced := by decide +kernel }]
  newline := true
  isMessage := fun _ h => absurd h List.not_mem_nil

/-- A value whose line ends before its first parenthesis. -/
def splitEarly : SymLog .ascii where
  messages := []
  records := [
    { key := ['x'], first := [], rest := [([], "(Add w32 1 2)".toList)], after := []
      key_ne := by decide +kernel, key_chars := keyChars_of_all (by decide +kernel), first_line := by decide +kernel
      messages := fun _ h => absurd h List.not_mem_nil
      pieces := by
        intro line hline
        obtain rfl := List.mem_singleton.mp hline
        refine ⟨?_, ?_, ?_, ?_⟩ <;> decide +kernel
      balanced := by decide +kernel }]
  newline := true
  isMessage := fun _ h => absurd h List.not_mem_nil

/-- The count goes to the directory of the other key, and a value that begins on the second line is lost. -/
theorem processSymValues_loses :
    (∃ out, processSymValues .ascii .latin countThenValue.text = some out ∧ out.written = some (['x'], 3) ∧
      ¬ countThenValue.Recovered .latin out) ∧
    ∃ out, processSymValues .ascii .latin splitEarly.text = some out ∧ out.values.get? ['x'] = some [[]] ∧
      ¬ splitEarly.Recovered .latin out := by
  have hwritten : (processSymValues .ascii .latin countThenValue.text).map SymValues.written =
      some (some (['x'], 3)) := by decide +kernel
  have hvalues : (processSymValues .ascii .latin splitEarly.text).map (fun out => out.values.get? ['x']) =
      some (some [[]]) := by decide +kernel
  obtain ⟨out, hout, hx⟩ := Option.map_eq_some_iff.mp hwritten
  obtain ⟨out', hout', hx'⟩ := Option.map_eq_some_iff.mp hvalues
  refine ⟨⟨out, hout, hx, fun h => ?_⟩, out', hout', hx', fun h => ?_⟩
  · obtain ⟨numbers, -, hnumbers⟩ := h.filed
    rw [hx] at hnumbers
    obtain ⟨most, -, hmost⟩ := Option.map_eq_some_iff.mp hnumbers.symm
    exact absurd (Prod.mk.inj hmost).1 (by decide +kernel)
  · have hmissing := h.values ['x']
    rw [hx'] at hmissing
    exact absurd hmissing (by decide +kernel)

end Assure
