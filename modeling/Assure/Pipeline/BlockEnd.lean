import Assure.Pipeline.BraceDepth
import Assure.Library.CText

/-!
# Ends of blocks

`_find_brace_delimited_block_end` reads a text character by character from an opening brace on and answers
where the block is closed. Unlike `_computeBraceDepthAt` it takes every apostrophe for the beginning of a
character literal, and it reads the second character of a comment mark again, as part of what follows.

The condition is shown to be enough, for both languages, with any text before and after. It is not
shown to be necessary: a scanner that is out of step can still come to the right brace where what it
swallows holds none.
-/

namespace Assure

open Assure.Library RustToken

/-- What is done at a character of code: braces are counted, and the one that closes the first one ends the block. -/
def braceAct (depth : Int) (ch : Char) : Unit ⊕ Int :=
  if ch = '\x7b' then .inr (depth + 1)
  else if ch = '\x7d' then if depth - 1 = 0 then .inl () else .inr (depth - 1)
  else .inr depth

/-- What Python has for a place that is not found. -/
def orMinusOne : Option Nat → Int
  | none => -1
  | some n => n

/-- **`_find_brace_delimited_block_end`** -/
def findBraceDelimitedBlockEnd (code : String) (braceIndex : Int) : Int :=
  if braceIndex < 0 ∨ braceIndex ≥ code.length ∨ code.toList[braceIndex.toNat]? ≠ some '\x7b' then -1
  else orMinusOne ((scanCode false braceAct none false 0 (code.toList.drop braceIndex.toNat)).map
    fun found => braceIndex.toNat + found.2)

/-! ## Where the block ends -/

/-- The characters on which the scanner acts. -/
def isBrace (c : Char) : Bool := c = '\x7b' ∨ c = '\x7d'

/-- A character that is no brace keeps the depth. -/
theorem braceAct_idle {c : Char} (h : isBrace c = false) (depth : Int) : braceAct depth c = .inr depth := by
  obtain ⟨hopen, hclose⟩ := not_or.mp (of_decide_eq_false h)
  rw [braceAct, if_neg hopen, if_neg hclose]

/-- Neither do the marks of literals, comments and raw strings change it. -/
theorem braceAct_marks : ∀ c ∈ ['"', '\'', '/', '#', '\n'], ∀ depth, braceAct depth c = .inr depth := by
  intro c hc
  have hplain : ['"', '\'', '/', '#', '\n'].all (fun c => !isBrace c) = true := by decide
  exact braceAct_idle (by simpa using List.all_eq_true.mp hplain c hc)

/-- A character of a word is no brace. -/
theorem isBrace_word {chars : CharClass} {c : Char} (h : chars.word c = true) : isBrace c = false := by
  refine decide_eq_false ?_
  rintro (rfl | rfl)
  · rw [chars.word_ascii _ (by decide)] at h
    exact absurd h (by decide)
  · rw [chars.word_ascii _ (by decide)] at h
    exact absurd h (by decide)

/-- The length of each piece and its brace. -/
def braceRows (pieces : List (Option Char × Nat)) : List (Nat × Int) :=
  pieces.map fun piece => (piece.2, piece.1.elim 0 fun c => (RustToken.code c).braces)

/-- The first piece gives the first row. -/
@[simp] theorem braceRows_cons (code : Option Char) (n : Nat) (pieces : List (Option Char × Nat)) :
    braceRows ((code, n) :: pieces) = (n, code.elim 0 fun c => (RustToken.code c).braces) :: braceRows pieces := rfl

/-- Every row covers at least one character. -/
theorem braceRows_pos {pieces : List (Option Char × Nat)} (h : ∀ piece ∈ pieces, 0 < piece.2) :
    ∀ row ∈ braceRows pieces, 0 < row.1 := by
  intro row hrow
  obtain ⟨piece, hpiece, rfl⟩ := List.mem_map.mp hrow
  exact h piece hpiece

/-- For tokens of Rust these are the rows that the depths are counted on. -/
theorem braceRows_rust (tokens : List RustToken) : braceRows (codePieces tokens) = rows tokens := by
  rw [braceRows, codePieces, rows, List.map_map]
  refine List.map_congr_left fun token _ => ?_
  cases token <;> rfl

/-- So they are for tokens of C. -/
theorem braceRows_c (tokens : List CToken) : braceRows (CToken.codePieces tokens) = CToken.rows tokens := by
  rw [braceRows, CToken.codePieces, CToken.rows, List.map_map]
  refine List.map_congr_left fun token _ => ?_
  cases token <;> rfl

/-- Where the depth of a row is zero for the first time, or the depth after the row. -/
def closing (depth : Int) (rows : List (Nat × Int)) : (Unit × Nat) ⊕ Int :=
  ((depthsBefore depth rows ++ [depthAfter depth rows]).findIdx? (· = 0)).elim (.inr (depthAfter depth rows))
    fun n => .inl ((), n)

/-- The search for the closing brace over the rows: it is there where the depth gets to zero. -/
theorem closing_cons {depth : Int} (hdepth : depth ≠ 0) (n : Nat) (braces : Int) {rows : List (Nat × Int)}
    (hrows : ∀ row ∈ rows, 0 < row.1) : closing depth ((n, braces) :: rows) =
      if depth + braces = 0 then .inl ((), n)
      else (closing (depth + braces) rows).map (fun found => (found.1, n + found.2)) id := by
  have hopen : decide (depth = 0) = false := decide_eq_false hdepth
  have hskip := @findIdx?_replicate_append Int (fun d => decide (d = 0)) depth hopen
  rw [closing, depthsBefore, depthAfter, List.append_assoc, hskip]
  split
  · rename_i hclosed
    obtain ⟨more, hmore⟩ := List.head?_eq_some_iff.mp (depthsBefore_head 0 hrows)
    rw [hclosed, hmore]
    rfl
  · rw [closing]
    cases (depthsBefore (depth + braces) rows ++ [depthAfter (depth + braces) rows]).findIdx? (· = 0) <;> rfl

/-- What is done at a character is to count its brace. -/
theorem braceAct_eq {depth : Int} (hdepth : 1 ≤ depth) (c : Char) : 0 ≤ depth + (RustToken.code c).braces ∧
    braceAct depth c = if depth + (RustToken.code c).braces = 0 then .inl () else .inr
      (depth + (RustToken.code c).braces) := by
  by_cases hopen : c = '\x7b'
  · subst hopen
    have hplus : (RustToken.code '\x7b').braces = 1 := rfl
    rw [hplus, if_neg (by omega), braceAct, if_pos rfl]
    exact ⟨by omega, rfl⟩
  · by_cases hclose : c = '\x7d'
    · subst hclose
      have hminus : (RustToken.code '\x7d').braces = -1 := rfl
      rw [hminus, braceAct, if_neg (by decide), if_pos rfl]
      exact ⟨by omega, rfl⟩
    · have hzero : (RustToken.code c).braces = 0 := by simp [RustToken.braces, hopen, hclose]
      rw [hzero, Int.add_zero, braceAct, if_neg hopen, if_neg hclose, if_neg (by omega)]
      exact ⟨by omega, rfl⟩

/-- **The block ends where the depth is back**, with so many braces open. -/
theorem codeRun_braces : ∀ {pieces : List (Option Char × Nat)} {depth : Int}, (∀ piece ∈ pieces, 0 < piece.2) →
    1 ≤ depth → codeRun braceAct depth pieces = closing depth (braceRows pieces)
  | [], depth, _, hdepth => by
    have hopen : ¬ depth = 0 := by omega
    simp [codeRun, braceRows, closing, depthsBefore, depthAfter, hopen]
  | (ch, n) :: pieces, depth, hpos, hdepth => by
    have hrest : ∀ piece ∈ pieces, 0 < piece.2 := fun piece hpiece => hpos piece (List.mem_cons_of_mem _ hpiece)
    rw [braceRows_cons, closing_cons (by omega) n _ (braceRows_pos hrest)]
    cases ch with
    | none =>
      rw [Option.elim_none, Int.add_zero, if_neg (by omega), codeRun, codeRun_braces hrest hdepth]
    | some c =>
      obtain ⟨hle, hact⟩ := braceAct_eq hdepth c
      rw [Option.elim_some, codeRun, hact]
      by_cases hclosed : depth + (RustToken.code c).braces = 0
      · rw [if_pos hclosed, if_pos hclosed]
      · rw [if_neg hclosed, if_neg hclosed, ← codeRun_braces hrest (by omega)]

/-- **The end of the block in a text that is read as its pieces**; either nothing follows or the block is closed. -/
theorem scanCode_blockEnd {text rest : List Char} {pieces : List (Option Char × Nat)} {rows : List (Nat × Int)}
    (h : Scans false braceAct text rest pieces) (hrun : codeRun braceAct 1 pieces = closing 1 rows)
    (hstop : rest = [] ∨ depthAfter 1 rows = 0) :
    (scanCode false braceAct none false 1 (text ++ rest)).map Prod.snd =
      (depthsBefore 1 rows ++ [depthAfter 1 rows]).findIdx? (· = 0) := by
  rw [h, hrun, closing]
  cases hfound : (depthsBefore 1 rows ++ [depthAfter 1 rows]).findIdx? (· = 0) with
  | some n => rfl
  | none =>
    rcases hstop with rfl | hclosed
    · rfl
    · have hlast := List.findIdx?_eq_none_iff.mp hfound (depthAfter 1 rows) (by simp)
      exact absurd hclosed (of_decide_eq_false hlast)

/-- The end of the block in Rust. -/
theorem codeRun_rust {after tokens : List RustToken} {pieces : List (Option Char × Nat)}
    (h : ScannedAs false isBrace after tokens pieces) : codeRun braceAct 1 pieces = closing 1 (rows tokens) := by
  rw [h.codeRun_eq (fun c => braceAct_idle), codeRun_braces (codePieces_pos tokens) (Int.le_refl 1), braceRows_rust]

/-! ## C -/

/-- **`_computeBraceDepthAt` keeps in step** with a token of C: a character constant is not taken for a label. -/
def TakenRight (isalpha : Char → Bool) (rest : List Char) : CToken → Prop
  | .lineComment body => body.getLast? ≠ some '\\'
  | .literal quote pieces =>
    quote = '\'' → isLabel isalpha (pieces.flatMap LiteralPiece.text ++ '\'' :: rest) = false
  | _ => True

/-- **The depths are the true ones**, in C. -/
theorem readsTo_c {isalpha : Char → Bool} {after : List CToken} : ∀ {tokens : List CToken},
    CToken.EachBefore (TakenRight isalpha) after tokens → CToken.WellLexed (tokens ++ after) →
      ReadsTo isalpha (CToken.textOf after) (CToken.textOf tokens) (CToken.rows tokens)
  | [], _, _ => .nil _
  | token :: tokens, ⟨htaken, hbefore⟩, ⟨hformed, hfits, hrest⟩ => by
    have ih := readsTo_c hbefore hrest
    rw [List.append_eq, CToken.textOf_append] at hfits
    rw [CToken.textOf_append] at htaken
    cases token with
    | code c =>
      refine ReadsTo.token [] _ rfl ?_ ih
      rw [List.nil_append, skipToken, if_neg hformed.1, if_neg hformed.2, if_neg fun h => (hfits h.1).1 h.2,
        if_neg fun h => (hfits h.1).2 h.2]
    | literal quote pieces =>
      obtain ⟨hquote, hplain⟩ := hformed.pieces
      refine ReadsTo.token (pieces.flatMap LiteralPiece.text ++ [quote]) (CToken.textOf tokens) ?_ ?_ ih
      · rcases hquote with rfl | rfl <;> rfl
      · have hafter := afterQuote_pieces (by rcases hquote with rfl | rfl <;> decide)
          (CToken.textOf tokens ++ CToken.textOf after) hplain
        rw [List.append_assoc, List.singleton_append]
        rcases hquote with rfl | rfl
        · rw [skipToken, if_pos rfl, hafter]
        · rw [skipToken, if_neg (by decide), if_pos rfl, htaken rfl, hafter]
          rfl
    | lineComment body =>
      refine ReadsTo.token ('/' :: body) (CToken.textOf tokens) rfl ?_ ih
      rw [skipToken, if_neg (by decide), if_neg (by decide), if_pos ⟨rfl, rfl⟩]
      exact dropWhile_line (List.not_mem_cons_of_ne_of_not_mem (by decide) hformed) hfits
    | blockComment body =>
      refine ReadsTo.token ('*' :: (body ++ ['*', '/'])) (CToken.textOf tokens) rfl ?_ ih
      rw [skipToken, if_neg (by decide), if_neg (by decide), if_neg (by simp), if_pos ⟨rfl, rfl⟩]
      have htail : '*' :: (body ++ ['*', '/']) ++ (CToken.textOf tokens ++ CToken.textOf after) =
          '*' :: (body ++ '*' :: '/' :: (CToken.textOf tokens ++ CToken.textOf after)) := by simp
      rw [htail]
      exact afterBlock_body _ hformed

/-! ## The two scanners -/

/-- **The answer is right and the two scanners agree**: at a place of a text with these depths the end of the block
is found, and it is where the depths of `_computeBraceDepthAt` are back. -/
def AgreesAt (isalpha : Char → Bool) (text : String) (depths : List Int) (place : Nat) : Prop :=
  findBraceDelimitedBlockEnd text place = orMinusOne (blockEnd? depths place) ∧
    findBraceDelimitedBlockEnd text place = orMinusOne (blockEnd? (computeBraceDepthAt isalpha text) place)

/-- From the opening brace on. -/
theorem findBraceDelimitedBlockEnd_eq (front rest : List Char) :
    findBraceDelimitedBlockEnd (String.ofList (front ++ '\x7b' :: rest)) front.length =
      orMinusOne (((scanCode false braceAct none false 1 rest).map Prod.snd).map (front.length + 1 + ·)) := by
  have hget : (front ++ '\x7b' :: rest)[front.length]? = some '\x7b' := by simp
  rw [findBraceDelimitedBlockEnd, if_neg]
  · have hopen : scanCode false braceAct none false 0 ('\x7b' :: rest) =
        further 1 (scanCode false braceAct none false 1 rest) :=
      scanCode_code false braceAct (by decide) (by decide) (fun h => absurd h (by decide)) rfl
    rw [String.toList_ofList, Int.toNat_natCast, List.drop_left, hopen]
    cases scanCode false braceAct none false 1 rest with
    | none => rfl
    | some found => exact congrArg _ (congrArg some (Nat.add_assoc front.length 1 found.2).symm)
  · rw [String.length_ofList, String.toList_ofList, Int.toNat_natCast, hget]
    simp only [List.length_append, List.length_cons, ne_eq, not_true_eq_false, or_false, not_or]
    omega

/-- **Where both scanners read a text right they agree.** -/
theorem agreesAt_of_pieces {isalpha : Char → Bool} {front block after : List Char} {fronts blocks : List (Nat × Int)}
    {pieces : List (Option Char × Nat)} (hlength : (depthsBefore 0 fronts).length = front.length)
    (hscans : Scans false braceAct block after pieces) (hrun : codeRun braceAct 1 pieces = closing 1 blocks)
    (hstop : after = [] ∨ depthAfter 1 blocks = 0)
    (hreads : ReadsTo isalpha after (front ++ '\x7b' :: block) (fronts ++ (1, 1) :: blocks)) {depths : List Int}
    (hhead : depths.head? = some (depthAfter (depthAfter 0 fronts + 1) blocks))
      (htail : after = [] → depths.tail = []) :
    AgreesAt isalpha (String.ofList (front ++ '\x7b' :: (block ++ after)))
      (depthsBefore 0 (fronts ++ (1, 1) :: blocks) ++ depths) front.length := by
  have hend := (findBraceDelimitedBlockEnd_eq front (block ++ after)).trans
    (congrArg (fun found => orMinusOne (found.map (front.length + 1 + ·))) (scanCode_blockEnd hscans hrun hstop))
  refine ⟨hend.trans (congrArg orMinusOne ?_), hend.trans (congrArg orMinusOne ?_)⟩
  · rw [← hlength]
    exact (blockEnd?_pieces hhead (hstop.imp_left htail)).symm
  · have htext : (front ++ '\x7b' :: block) ++ after = front ++ '\x7b' :: (block ++ after) := by simp
    obtain ⟨left, hleft, hread⟩ := hreads 0 _ (Nat.lt_succ_self _)
    obtain ⟨hhead', htail'⟩ := braceDepths_head isalpha (depthAfter 0 (fronts ++ (1, 1) :: blocks))
      hleft
    rw [depthAfter_append, depthAfter] at hhead' htail'
    rw [computeBraceDepthAt, String.length_ofList, String.toList_ofList, ← htext, hread, depthAfter_append 0 fronts,
      depthAfter, ← hlength]
    exact (blockEnd?_pieces hhead' (hstop.imp_left htail')).symm

/-- **Both scanners find the end of a block**, in Rust and in C, where they read right what is before and in it: the
place that is returned is where the depths of `_computeBraceDepthAt` are back, and it is -1 where they are never
back. -/
theorem findBraceDelimitedBlockEnd_agrees (isalpha : Char → Bool) (halpha : isalpha '\\' = false) :
    (∀ (chars : CharClass) (front block after : List RustToken),
      WellLexed chars (front ++ .code '\x7b' :: (block ++ after)) → after = [] ∨ depthAfter 1 (rows block) = 0 →
      ScannedUpTo false isBrace after block → InStepUpTo isalpha after (front ++ .code '\x7b' :: block) →
      AgreesAt isalpha (String.ofList (textOf (front ++ .code '\x7b' :: (block ++ after))))
        (trueDepths 0 (front ++ .code '\x7b' :: (block ++ after))) (textOf front).length) ∧
    (∀ front block after : List CToken,
      CToken.WellLexed (front ++ .code '\x7b' :: (block ++ after)) →
      after = [] ∨ depthAfter 1 (CToken.rows block) = 0 →
      CToken.EachBefore (CToken.PassedOver false) after block →
      CToken.EachBefore (TakenRight isalpha) after (front ++ .code '\x7b' :: block) →
      AgreesAt isalpha (String.ofList (CToken.textOf (front ++ .code '\x7b' :: (block ++ after))))
        (CToken.trueDepths (front ++ .code '\x7b' :: (block ++ after))) (CToken.textOf front).length) := by
  refine ⟨fun chars front block after hlexed hstop hpassed hstep => ?_,
    fun front block after hlexed hstop hpassed htaken => ?_⟩
  · have hblock : WellLexed chars (block ++ after) := (WellLexed.of_append hlexed).2.2
    have hall : front ++ .code '\x7b' :: (block ++ after) = (front ++ .code '\x7b' :: block) ++ after := by simp
    have hreads := hstep.reads halpha (hall ▸ hlexed)
    rw [rows_append, rows_cons, textOf_append, textOf_cons] at hreads
    rw [hall, trueDepths_append, ← hall, rows_append, rows_cons, textOf_append, textOf_cons, textOf_append]
    obtain ⟨pieces, hpassed⟩ := hpassed
    have hscans := hpassed.scans hblock braceAct_marks fun c hc => braceAct_idle (isBrace_word hc)
    refine agreesAt_of_pieces (RustToken.depthsBefore_length 0 front) hscans (codeRun_rust hpassed)
      (hstop.imp_left fun h => by rw [h]; rfl) hreads ?_ fun h => ?_
    · rw [depthAfter_append, depthAfter]
      have hhead := depthsBefore_head (depthAfter (depthAfter 0 (rows front) + 1) (rows block)) (rows_pos after)
      have htrue := trueDepths_append after [] (depthAfter (depthAfter 0 (rows front) + 1) (rows block))
      rw [List.append_nil] at htrue
      exact (congrArg List.head? htrue).trans hhead
    · rw [eq_nil_of_textOf h]
      rfl
  · have hblock : CToken.WellLexed (block ++ after) := (CToken.WellLexed.of_append hlexed).2.2
    have hall : front ++ .code '\x7b' :: (block ++ after) = (front ++ .code '\x7b' :: block) ++ after := by simp
    have hreads := readsTo_c htaken (hall ▸ hlexed)
    rw [CToken.rows_append, CToken.rows_cons, CToken.textOf_append, CToken.textOf_cons] at hreads
    have hrows : CToken.rows (front ++ .code '\x7b' :: (block ++ after)) =
        (CToken.rows front ++ (1, 1) :: CToken.rows block) ++ CToken.rows after := by
      rw [hall, CToken.rows_append, CToken.rows_append, CToken.rows_cons]
      rfl
    rw [CToken.trueDepths, hrows, depthsBefore_append, List.append_assoc, CToken.textOf_append, CToken.textOf_cons,
      CToken.textOf_append]
    have hrun : codeRun braceAct 1 (CToken.codePieces block) = closing 1 (CToken.rows block) := by
      rw [codeRun_braces (CToken.codePieces_pos block) (Int.le_refl 1), braceRows_c]
    refine agreesAt_of_pieces (CToken.depthsBefore_length 0 front) (CToken.scans braceAct_marks hpassed hblock) hrun
      (hstop.imp_left fun h => by rw [h]; rfl) hreads ?_ fun h => ?_
    · rw [depthAfter_append 0 (CToken.rows front ++ _), depthAfter_append 0 (CToken.rows front), depthAfter]
      exact depthsBefore_head _ (CToken.rows_pos after)
    · rw [CToken.eq_nil_of_textOf h]
      rfl

/-- `{ /*}*/ r#"}"# <'a, 'b> }` -/
def rustBlock : List RustToken :=
  .code ' ' :: .blockComment ['\x7d', '*', '/'] :: .code ' ' :: .rawStr 1 ['\x7d'] :: .code ' ' :: .code '<' ::
    .lifetime ['a'] :: ([.code ',', .code ' '] ++ .lifetime ['b'] :: [.code '>', .code ' ', .code '\x7d'])

/-- `{ '}' /*}*/ "\"}" }` -/
def cBlock : List CToken :=
  [.code ' ', .literal '\'' [.plain '\x7d'], .code ' ', .blockComment ['\x7d'], .code ' ',
    .literal '"' [.escape '"', .plain '\x7d'], .code ' ', .code '\x7d']

/-- The theorem at a block of Rust and at one of C, each with something in it that is no code. -/
theorem findBraceDelimitedBlockEnd_agrees_blocks :
    AgreesAt Char.isAlpha (String.ofList (textOf ([] ++ .code '\x7b' :: (rustBlock ++ [.lifetime ['c']]))))
      (trueDepths 0 ([] ++ .code '\x7b' :: (rustBlock ++ [.lifetime ['c']]))) 0 ∧
    AgreesAt Char.isAlpha (String.ofList (CToken.textOf ([] ++ .code '\x7b' :: (cBlock ++ [.code '\x7d']))))
      (CToken.trueDepths ([] ++ .code '\x7b' :: (cBlock ++ [.code '\x7d']))) 0 := by
  refine ⟨(findBraceDelimitedBlockEnd_agrees Char.isAlpha (by decide)).1 .ascii [] rustBlock [.lifetime ['c']]
    (by decide +kernel) (.inr (by decide +kernel)) ?_ ?_,
    (findBraceDelimitedBlockEnd_agrees Char.isAlpha (by decide)).2 [] cBlock [.code '\x7d'] ?_
      (.inr (by decide +kernel))
      ?_ ?_⟩
  · have hidle : ∀ c, RustToken.code c ∈ [RustToken.code ',', .code ' '] → isBrace c = false := by
      intro c hc
      rcases List.mem_pair.mp hc with hc | hc <;> cases hc <;> rfl
    exact ⟨_, .code (.blockComment (by decide +kernel) (fun _ => by decide +kernel) (.code
      (.rawStr (List.forall_mem_singleton.mpr (by decide)) (.code (.code (.labels
        (by simp [text]) hidle (.code (.code (.code .nil)))))))))⟩
  · exact .code (.code (.blockComment (by decide +kernel) (.code
      (.rawStr (List.forall_mem_singleton.mpr (by decide)) (.code (.code (.labels (by decide +kernel)
        (by simp [text]) (by decide +kernel) (.code (.code (.code .nil))))))))))
  · have hbody : ¬ ['*', '/'] <:+: ['\x7d', '*'] := by decide
    simpa [cBlock, CToken.WellLexed, CToken.WellFormed, CToken.Fits] using hbody
  · simp [cBlock, CToken.EachBefore, CToken.PassedOver, CToken.text]
  · simp [cBlock, CToken.EachBefore, TakenRight, isLabel, CToken.text, LiteralPiece.text]

/-- **A label hides the end of its block, and so does a comment that begins with a slash**: in `{'a:}` nothing is
found, in `{/*/}*/}` the brace in the comment. -/
theorem findBraceDelimitedBlockEnd_label :
    (WellLexed .ascii [.code '\x7b', .lifetime ['a'], .code ':', .code '\x7d'] ∧
      ¬ AgreesAt Char.isAlpha "\x7b'a:\x7d"
        (trueDepths 0 [.code '\x7b', .lifetime ['a'], .code ':', .code '\x7d']) 0) ∧
    (CToken.WellLexed [.code '\x7b', .blockComment ['/', '\x7d'], .code '\x7d'] ∧
      ¬ AgreesAt Char.isAlpha "\x7b/*/\x7d*/\x7d"
        (CToken.trueDepths [.code '\x7b', .blockComment ['/', '\x7d'], .code '\x7d']) 0) := by
  have hlabel : findBraceDelimitedBlockEnd "\x7b'a:\x7d" 0 = -1 ∧
      blockEnd? (trueDepths 0 [.code '\x7b', .lifetime ['a'], .code ':', .code '\x7d']) 0 = some 5 := by
    decide +kernel
  have hcomment : findBraceDelimitedBlockEnd "\x7b/*/\x7d*/\x7d" 0 = 5 ∧
      blockEnd? (CToken.trueDepths [.code '\x7b', .blockComment ['/', '\x7d'], .code '\x7d']) 0 = some 8 := by
    decide +kernel
  refine ⟨⟨by decide +kernel, fun h => ?_⟩, ⟨?_, fun h => ?_⟩⟩
  · exact absurd (hlabel.1.symm.trans (h.1.trans (congrArg orMinusOne hlabel.2))) (by decide)
  · have hbody : ¬ ['*', '/'] <:+: ['/', '\x7d'] ++ ['*'] := by decide
    simpa [CToken.WellLexed, CToken.WellFormed, CToken.Fits] using hbody
  · exact absurd (hcomment.1.symm.trans (h.1.trans (congrArg orMinusOne hcomment.2))) (by decide)

end Assure
