import Assure.Library.RustText
import Assure.Library.CText
import Mathlib.Tactic.Common

/-!
# Scanning code

A hand-written scanner for code keeps four flags, for strings, character literals, line comments and block
comments, and one for a backslash. In code it does what it is there for (`act`): it goes on in another state or
stops. Every apostrophe begins a character literal for it, and block comments do not nest. It takes the marks of a
comment as one, or it reads the second character of a mark again (`both`).

`Passes` says that the scanner takes a text for one without code to act on, `ReadsRust` and `ReadsC` which tokens
of a language it tells apart.
-/

namespace Assure.Library

/-- What a scanner is inside of. -/
inductive Inside
  | lineComment
  | blockComment
  | string
  | char
  deriving DecidableEq

/-- **One character that is not code**, with the one after it: what the scanner is inside of then, whether a
backslash was read, and whether both characters are one mark. Nothing for a character of code. -/
def nextInside (inside : Option Inside) (escaped : Bool) (ch : Char) (nxt : Option Char) :
    Option (Option Inside × Bool × Bool) :=
  match inside with
  | some .lineComment => some (if ch = '\n' then none else inside, escaped, false)
  | some .blockComment =>
    if ch = '*' ∧ nxt = some '/' then some (none, escaped, true) else some (inside, escaped, false)
  | some .string =>
    some (if ch = '"' ∧ escaped = false then none else inside, ch == '\\' && !escaped, false)
  | some .char =>
    some (if ch = '\'' ∧ escaped = false then none else inside, ch == '\\' && !escaped, false)
  | none =>
    if ch = '/' ∧ nxt = some '/' then some (some .lineComment, false, true)
    else if ch = '/' ∧ nxt = some '*' then some (some .blockComment, false, true)
    else if ch = '"' then some (some .string, false, false)
    else if ch = '\'' then some (some .char, false, false)
    else none

variable {σ ρ : Type*}

/-- So many more characters were read. -/
def further (n : Nat) (result : Option (ρ × Nat)) : Option (ρ × Nat) := result.map fun found => (found.1, n + found.2)

/-- Nothing found is nothing found further on. -/
@[simp] theorem further_none (n : Nat) : further n (none : Option (ρ × Nat)) = none := rfl

/-- A place found behind a stretch is that much further on. -/
@[simp] theorem further_some (n : Nat) (r : ρ) (k : Nat) : further n (some (r, k)) = some (r, n + k) := rfl

/-- Two stretches push a place by both lengths. -/
theorem further_further (m n : Nat) (result : Option (ρ × Nat)) :
    further m (further n result) = further (m + n) result := by
  cases result with
  | none => rfl
  | some found => simp [further, Nat.add_assoc]

/-- **The scanner**: what it stops with, and how many characters it has read then. -/
def scanCode (both : Bool) (act : σ → Char → ρ ⊕ σ) : Option Inside → Bool → σ → List Char → Option (ρ × Nat)
  | _, _, _, [] => none
  | inside, escaped, state, ch :: rest =>
    match nextInside inside escaped ch rest.head? with
    | none =>
      match act state ch with
      | .inl result => some (result, 1)
      | .inr state => further 1 (scanCode both act none false state rest)
    | some (inside, escaped, mark) =>
      match rest with
      | [] => none
      | nxt :: rest =>
        if mark && both then further 2 (scanCode both act inside escaped state rest)
        else further 1 (scanCode both act inside escaped state (nxt :: rest))

section

variable (both : Bool) (act : σ → Char → ρ ⊕ σ)

/-- A character that is no mark of its own. -/
theorem scanCode_step {inside inside' : Option Inside} {escaped escaped' : Bool} {state : σ} {ch : Char}
    {rest : List Char} (h : nextInside inside escaped ch rest.head? = some (inside', escaped', false)) :
    scanCode both act inside escaped state (ch :: rest) =
      further 1 (scanCode both act inside' escaped' state rest) := by
  cases rest with
  | nil =>
    have hnext : nextInside inside escaped ch none = some (inside', escaped', false) := h
    simp [scanCode, hnext]
  | cons nxt rest =>
    rw [scanCode, h]
    rfl

/-- A mark of two characters. -/
theorem scanCode_mark {inside inside' : Option Inside} {escaped escaped' : Bool} {state : σ} {ch nxt : Char}
    {rest : List Char} (h : nextInside inside escaped ch (some nxt) = some (inside', escaped', true)) :
    scanCode both act inside escaped state (ch :: nxt :: rest) =
      if both = true then further 2 (scanCode both act inside' escaped' state rest)
      else further 1 (scanCode both act inside' escaped' state (nxt :: rest)) := by
  rw [scanCode, List.head?_cons, h]
  rfl

/-- A character of code on which the scanner goes on. -/
theorem scanCode_code {state state' : σ} {ch : Char} {rest : List Char} (hquote : ch ≠ '"') (happ : ch ≠ '\'')
    (hslash : ch = '/' → rest.head? ≠ some '/' ∧ rest.head? ≠ some '*') (hact : act state ch = .inr state') :
    scanCode both act none false state (ch :: rest) = further 1 (scanCode both act none false state' rest) := by
  have hnext : nextInside none false ch rest.head? = none := by
    rw [nextInside, if_neg fun h => (hslash h.1).1 h.2, if_neg fun h => (hslash h.1).2 h.2, if_neg hquote,
      if_neg happ]
  rw [scanCode, hnext]
  dsimp only
  rw [hact]

/-- A character of code on which it stops. -/
theorem scanCode_stop {state : σ} {ch : Char} {rest : List Char} {result : ρ} (hquote : ch ≠ '"') (happ : ch ≠ '\'')
    (hslash : ch ≠ '/') (hact : act state ch = .inl result) :
    scanCode both act none false state (ch :: rest) = some (result, 1) := by
  have hnext : nextInside none false ch rest.head? = none := by
    rw [nextInside, if_neg fun h => hslash h.1, if_neg fun h => hslash h.1, if_neg hquote, if_neg happ]
  rw [scanCode, hnext]
  dsimp only
  rw [hact]

/-! ## Texts without code -/

/-- Plain pieces. -/
theorem plain_pieces {quote : Char} {text : List Char} (h : ∀ c ∈ text, c ≠ quote ∧ c ≠ '\\') :
    (text.map LiteralPiece.plain).flatMap LiteralPiece.text = text ∧
      ∀ piece ∈ text.map LiteralPiece.plain, ∀ c, piece = .plain c → c ≠ quote ∧ c ≠ '\\' := by
  refine ⟨?_, ?_⟩
  · clear h
    induction text with
    | nil => rfl
    | cons c text ih => exact congrArg (c :: ·) ih
  · rintro piece hpiece c rfl
    obtain ⟨d, hd, hplain⟩ := List.mem_map.mp hpiece
    cases hplain
    exact h c hd

/-- **The scanner passes over a text** that stands before another one. -/
def Passes (text rest : List Char) : Prop :=
  ∀ state, scanCode both act none false state (text ++ rest) =
    further text.length (scanCode both act none false state rest)

variable {both act}

/-- An empty stretch is passed. -/
theorem Passes.nil (rest : List Char) : Passes both act [] rest := by
  intro state
  cases h : scanCode both act none false state rest with
  | none => rw [List.nil_append, h]; rfl
  | some found => rw [List.nil_append, h]; simp [further]

/-- Two stretches are passed one after the other, where the first is read with the second behind it.
-/
theorem Passes.append {text text' rest : List Char} (h : Passes both act text (text' ++ rest))
    (h' : Passes both act text' rest) : Passes both act (text ++ text') rest := by
  intro state
  rw [List.append_assoc, h, h', further_further, List.length_append]

/-- The pieces of a literal and its closing quote. -/
theorem scanCode_quoted (state : σ) (rest : List Char) {quote : Char} {inside : Inside}
    (hinside : (quote = '"' ∧ inside = .string) ∨ (quote = '\'' ∧ inside = .char)) :
    ∀ {pieces : List LiteralPiece}, (∀ piece ∈ pieces, ∀ c, piece = .plain c → c ≠ quote ∧ c ≠ '\\') →
      scanCode both act (some inside) false state (pieces.flatMap LiteralPiece.text ++ quote :: rest) =
        further ((pieces.flatMap LiteralPiece.text).length + 1) (scanCode both act none false state rest)
  | [], _ => by
    refine scanCode_step both act ?_
    rcases hinside with ⟨rfl, rfl⟩ | ⟨rfl, rfl⟩ <;> rfl
  | .plain c :: pieces, h => by
    obtain ⟨hquote, hslash⟩ := h (.plain c) List.mem_cons_self c rfl
    have ih := scanCode_quoted state rest hinside fun p hp => h p (List.mem_cons_of_mem _ hp)
    have hnext : ∀ nxt, nextInside (some inside) false c nxt = some (some inside, false, false) := by
      intro nxt
      rcases hinside with ⟨rfl, rfl⟩ | ⟨rfl, rfl⟩ <;> simp [nextInside, hquote, hslash]
    show scanCode both act _ _ _ (c :: (pieces.flatMap LiteralPiece.text ++ quote :: rest)) = _
    rw [scanCode_step both act (hnext _), ih, further_further, List.flatMap_cons, List.length_append, LiteralPiece.text]
    exact congrArg (further · _) (Nat.add_assoc 1 _ 1).symm
  | .escape c :: pieces, h => by
    have ih := scanCode_quoted state rest hinside fun p hp => h p (List.mem_cons_of_mem _ hp)
    have hback : ∀ nxt, nextInside (some inside) false '\\' nxt = some (some inside, true, false) := by
      intro nxt
      rcases hinside with ⟨rfl, rfl⟩ | ⟨rfl, rfl⟩ <;> rfl
    have hnext : ∀ nxt, nextInside (some inside) true c nxt = some (some inside, false, false) := by
      intro nxt
      rcases hinside with ⟨rfl, rfl⟩ | ⟨rfl, rfl⟩ <;> simp [nextInside]
    show scanCode both act _ _ _ ('\\' :: c :: (pieces.flatMap LiteralPiece.text ++ quote :: rest)) = _
    rw [scanCode_step both act (hback _), scanCode_step both act (hnext _), ih, further_further, further_further,
      List.flatMap_cons, List.length_append, LiteralPiece.text]
    exact congrArg (further · _) (Nat.add_assoc 2 _ 1).symm

/-- **A literal** with its quotes. -/
theorem Passes.literal (quote : Char) (hquote : quote = '"' ∨ quote = '\'') {pieces : List LiteralPiece}
    (h : ∀ piece ∈ pieces, ∀ c, piece = .plain c → c ≠ quote ∧ c ≠ '\\') (rest : List Char) :
    Passes both act (quote :: (pieces.flatMap LiteralPiece.text ++ [quote])) rest := by
  intro state
  have htext : quote :: (pieces.flatMap LiteralPiece.text ++ [quote]) ++ rest =
      quote :: (pieces.flatMap LiteralPiece.text ++ quote :: rest) := by simp
  have hopen : ∃ inside, ((quote = '"' ∧ inside = .string) ∨ (quote = '\'' ∧ inside = .char)) ∧
      ∀ nxt, nextInside none false quote nxt = some (some inside, false, false) := by
    rcases hquote with rfl | rfl
    · exact ⟨.string, .inl ⟨rfl, rfl⟩, fun _ => by simp [nextInside]⟩
    · exact ⟨.char, .inr ⟨rfl, rfl⟩, fun _ => by simp [nextInside]⟩
  obtain ⟨inside, hinside, hnext⟩ := hopen
  rw [htext, scanCode_step both act (hnext _), scanCode_quoted state rest hinside h, further_further]
  congr 1
  simp only [List.length_cons, List.length_append, List.length_nil]
  omega

/-- A literal of plain characters. -/
theorem Passes.quoted (quote : Char) (hquote : quote = '"' ∨ quote = '\'') {text : List Char}
    (h : ∀ c ∈ text, c ≠ quote ∧ c ≠ '\\') (rest : List Char) : Passes both act (quote :: (text ++ [quote])) rest := by
  obtain ⟨htext, hplain⟩ := plain_pieces h
  rw [← htext]
  exact .literal quote hquote hplain rest

/-- A line comment stays one up to the end of its line. -/
theorem scanCode_line (hskip : ∀ state, act state '\n' = .inr state) (state : σ) {rest : List Char}
    (hrest : rest = [] ∨ rest.head? = some '\n') : ∀ {body : List Char}, '\n' ∉ body →
      scanCode both act (some .lineComment) false state (body ++ rest) =
        further body.length (scanCode both act none false state rest)
  | [], _ => by
    rcases hrest with rfl | hhead
    · rfl
    · obtain ⟨rest, rfl⟩ := List.head?_eq_some_iff.mp hhead
      have hcode : scanCode both act none false state ('\n' :: rest) =
          further 1 (scanCode both act none false state rest) :=
        scanCode_code both act (by decide) (by decide) (fun h => absurd h (by decide)) (hskip state)
      have hline : nextInside (some .lineComment) false '\n' rest.head? = some (none, false, false) := rfl
      rw [List.nil_append, hcode, further_further]
      exact scanCode_step both act hline
  | c :: body, h => by
    obtain ⟨hc, hbody⟩ := List.ne_and_not_mem_of_not_mem_cons h
    have hnext : nextInside (some .lineComment) false c (body ++ rest).head? =
        some (some .lineComment, false, false) := by
      rw [nextInside, if_neg hc.symm]
    rw [List.cons_append, scanCode_step both act hnext, scanCode_line hskip state hrest hbody, further_further,
      List.length_cons, Nat.add_comm]

/-- **A line comment.** -/
theorem Passes.line (hskip : ∀ state, act state '\n' = .inr state) {body rest : List Char} (hbody : '\n' ∉ body)
    (hrest : rest = [] ∨ rest.head? = some '\n') : Passes both act ('/' :: '/' :: body) rest := by
  intro state
  have hnext : nextInside none false '/' (some '/') = some (some .lineComment, false, true) := rfl
  show scanCode both act none false state ('/' :: '/' :: (body ++ rest)) = _
  rw [scanCode_mark both act hnext]
  split
  · rw [scanCode_line hskip state hrest hbody, further_further]
    congr 1
    simp only [List.length_cons]
    omega
  · have hline : '\n' ∉ '/' :: body := List.not_mem_cons_of_ne_of_not_mem (by decide) hbody
    rw [← List.cons_append, scanCode_line hskip state hrest hline, further_further]
    congr 1
    simp only [List.length_cons]
    omega

/-- The inside of a block comment, up to its end. -/
theorem scanCode_block (state : σ) {rest : List Char} : ∀ {body : List Char}, ¬ ['*', '/'] <:+: body ++ ['*'] →
    scanCode both act (some .blockComment) false state (body ++ '*' :: '/' :: rest) =
      if both = true then further (body.length + 2) (scanCode both act none false state rest)
      else further (body.length + 1) (scanCode both act none false state ('/' :: rest))
  | [], _ => by
    have hnext : nextInside (some .blockComment) false '*' (some '/') = some (none, false, true) := rfl
    exact scanCode_mark both act hnext
  | c :: body, h => by
    have hnext : nextInside (some .blockComment) false c (body ++ '*' :: '/' :: rest).head? =
        some (some .blockComment, false, false) := by
      refine if_neg ?_
      rintro ⟨rfl, hhead⟩
      cases body with
      | nil => simp at hhead
      | cons d body =>
        obtain rfl : d = '/' := by simpa using hhead
        exact h ⟨[], body ++ ['*'], rfl⟩
    have hbody : ¬ ['*', '/'] <:+: body ++ ['*'] := fun hin => h (hin.trans (List.suffix_cons c _).isInfix)
    rw [List.cons_append, scanCode_step both act hnext, scanCode_block state hbody]
    split
    · rw [further_further, List.length_cons]
      congr 1
      omega
    · rw [further_further, List.length_cons]
      congr 1
      omega

/-- A slash that begins no comment. -/
theorem Passes.slash (hskip : ∀ state, act state '/' = .inr state) {rest : List Char} (hslash : rest.head? ≠ some '/')
    (hstar : rest.head? ≠ some '*') : Passes both act ['/'] rest := fun state =>
  scanCode_code both act (by decide) (by decide) (fun _ => ⟨hslash, hstar⟩) (hskip state)

/-- **A block comment.** If the marks are read again it does not begin with a slash, and its last slash begins no
comment. -/
theorem Passes.block (hskip : ∀ state, act state '/' = .inr state) {body rest : List Char}
    (hbody : ¬ ['*', '/'] <:+: body ++ ['*'])
    (hmarks : both = false → body.head? ≠ some '/' ∧ rest.head? ≠ some '/' ∧ rest.head? ≠ some '*') :
    Passes both act ('/' :: '*' :: (body ++ ['*', '/'])) rest := by
  intro state
  have hnext : nextInside none false '/' (some '*') = some (some .blockComment, false, true) := rfl
  have htext : '/' :: '*' :: (body ++ ['*', '/']) ++ rest = '/' :: '*' :: (body ++ '*' :: '/' :: rest) := by simp
  rw [htext, scanCode_mark both act hnext]
  cases both with
  | true =>
    rw [if_pos rfl, scanCode_block state hbody, if_pos rfl, further_further]
    congr 1
    simp only [List.length_cons, List.length_append, List.length_nil]
    omega
  | false =>
    obtain ⟨hfirst, hslash, hstar⟩ := hmarks rfl
    have hinner : ¬ ['*', '/'] <:+: ('*' :: body) ++ ['*'] := by
      intro hin
      rw [List.cons_append, List.infix_cons_iff] at hin
      rcases hin with hin | hin
      · cases body with
        | nil => exact absurd hin (by decide)
        | cons d body =>
          obtain rfl : d = '/' := by
            have := List.cons_prefix_cons.mp (List.cons_prefix_cons.mp hin).2
            exact this.1.symm
          exact hfirst rfl
      · exact hbody hin
    rw [if_neg Bool.false_ne_true, ← List.cons_append, scanCode_block state hinner, if_neg Bool.false_ne_true,
      scanCode_code false act (by decide) (by decide) (fun _ => ⟨hslash, hstar⟩) (hskip state), further_further,
      further_further]
    congr 1
    simp only [List.length_cons, List.length_append, List.length_nil]
    omega

end

/-! ## Texts in pieces -/

/-- **What the scanner does with a text in pieces**, each a character of code or without code, and so long: it stops
after so many characters, or it goes on in a state. -/
def codeRun (act : σ → Char → ρ ⊕ σ) : σ → List (Option Char × Nat) → (ρ × Nat) ⊕ σ
  | state, [] => .inr state
  | state, (none, n) :: pieces => (codeRun act state pieces).map (fun found => (found.1, n + found.2)) id
  | state, (some c, n) :: pieces =>
    match act state c with
    | .inl result => .inl (result, n)
    | .inr state => (codeRun act state pieces).map (fun found => (found.1, n + found.2)) id

/-- The characters of a row of pieces. -/
def lengthOf : List (Option Char × Nat) → Nat
  | [] => 0
  | piece :: pieces => piece.2 + lengthOf pieces

/-- The answer for the text before another one. -/
def goOn (both : Bool) (act : σ → Char → ρ ⊕ σ) (n : Nat) (rest : List Char) : (ρ × Nat) ⊕ σ → Option (ρ × Nat)
  | .inl found => some found
  | .inr state => further n (scanCode both act none false state rest)

/-- Going on behind a stretch of one length and then of another is going on behind both. -/
theorem goOn_map (both : Bool) (act : σ → Char → ρ ⊕ σ) (m n : Nat) (rest : List Char) (result : (ρ × Nat) ⊕ σ) :
    goOn both act (m + n) rest (result.map (fun found => (found.1, m + found.2)) id) =
      further m (goOn both act n rest result) := by
  cases result with
  | inl found => rfl
  | inr state => exact (further_further m n _).symm

section

variable (both : Bool) (act : σ → Char → ρ ⊕ σ)

/-- **The scanner reads a text as its pieces.** -/
def Scans (text rest : List Char) (pieces : List (Option Char × Nat)) : Prop :=
  ∀ state, scanCode both act none false state (text ++ rest) =
    goOn both act text.length rest (codeRun act state pieces)

variable {both act} {text rest : List Char} {pieces : List (Option Char × Nat)}

/-- An empty stretch is scanned as no tokens. -/
theorem Scans.nil (rest : List Char) : Scans both act [] rest [] := Passes.nil rest

/-- The scanner is idle on pieces without a character that it acts on. -/
theorem codeRun_idle (state : σ) : ∀ {flat : List (Option Char × Nat)},
    (∀ piece ∈ flat, ∀ c, piece.1 = some c → ∀ state, act state c = .inr state) →
      codeRun act state (flat ++ pieces) =
        (codeRun act state pieces).map (fun found => (found.1, lengthOf flat + found.2)) id
  | [], _ => by
    cases h : codeRun act state pieces with
    | inl found => simp [h, lengthOf]
    | inr state' => simp [h]
  | (code, n) :: flat, h => by
    have ih := codeRun_idle state fun piece hpiece => h piece (List.mem_cons_of_mem _ hpiece)
    have hstep : codeRun act state ((code, n) :: (flat ++ pieces)) =
        (codeRun act state (flat ++ pieces)).map (fun found => (found.1, n + found.2)) id := by
      cases code with
      | none => rfl
      | some c =>
        rw [codeRun, h (some c, n) List.mem_cons_self c rfl state]
    rw [List.cons_append, hstep, ih]
    cases codeRun act state pieces with
    | inl found => simp [lengthOf, Nat.add_assoc]
    | inr state' => rfl

/-- **A text that is passed over**, in pieces on which the scanner is idle. -/
theorem Scans.pass {front : List Char} (hfront : Passes both act front (text ++ rest))
    (flat : List (Option Char × Nat)) (hflat : ∀ piece ∈ flat, ∀ c, piece.1 = some c → ∀ state,
      act state c = .inr state)
    (hlength : lengthOf flat = front.length) (h : Scans both act text rest pieces) :
    Scans both act (front ++ text) rest (flat ++ pieces) := by
  intro state
  rw [List.append_assoc, hfront, h, codeRun_idle _ hflat, hlength, List.length_append, goOn_map]

/-- **A character of code.** -/
theorem Scans.code {c : Char} (hquote : c ≠ '"') (happ : c ≠ '\'')
    (hslash : c = '/' → (text ++ rest).head? ≠ some '/' ∧ (text ++ rest).head? ≠ some '*')
    (hstop : ∀ state, c = '/' → act state c = .inr state) (h : Scans both act text rest pieces) :
    Scans both act (c :: text) rest ((some c, 1) :: pieces) := by
  intro state
  rw [List.cons_append, codeRun]
  cases hact : act state c with
  | inl result =>
    have hne : c ≠ '/' := by
      rintro rfl
      rw [hstop state rfl] at hact
      cases hact
    exact scanCode_stop both act hquote happ hne hact
  | inr state' =>
    rw [scanCode_code both act hquote happ hslash hact, h, List.length_cons, Nat.add_comm text.length 1, goOn_map]

/-- Characters of code on which the scanner is idle. -/
theorem Passes.idle : ∀ {text : List Char}, (∀ c ∈ text, c ≠ '"' ∧ c ≠ '\'' ∧ c ≠ '/' ∧ ∀ state, act state c = .inr state) →
    Passes both act text rest
  | [], _ => .nil rest
  | c :: text, h => by
    obtain ⟨hquote, happ, hslash, hidle⟩ := h c List.mem_cons_self
    have hone : Passes both act [c] (text ++ rest) := fun state =>
      scanCode_code both act hquote happ (fun hc => absurd hc hslash) (hidle state)
    exact hone.append (Passes.idle fun d hd => h d (List.mem_cons_of_mem c hd))

end

/-! ## Rust -/

/-- The inside of a comment in which none is opened. -/
theorem exists_comment_body : ∀ {tail : List Char}, closesComments 1 tail = true → ¬ ['/', '*'] <:+: tail →
    ∃ body, tail = body ++ ['*', '/'] ∧ ¬ ['*', '/'] <:+: body ++ ['*']
  | [], h, _ => by cases h
  | [_], h, _ => by cases h
  | c :: d :: cs, h, hflat => by
    rw [closesComments] at h
    split at h
    · rename_i hend
      obtain ⟨rfl, rfl⟩ := hend
      cases cs with
      | nil => exact ⟨[], rfl, by decide⟩
      | cons e cs => cases h
    · rename_i hend
      split at h
      · rename_i hopen
        obtain ⟨rfl, rfl⟩ := hopen
        exact absurd ⟨[], cs, rfl⟩ hflat
      · obtain ⟨body, hbody, hnone⟩ := exists_comment_body h
          fun hin => hflat (hin.trans (List.suffix_cons c _).isInfix)
        refine ⟨c :: body, by rw [hbody]; rfl, ?_⟩
        rw [List.cons_append, List.infix_cons_iff]
        refine not_or.mpr ⟨fun hpre => ?_, hnone⟩
        have hstart := List.cons_prefix_cons.mp hpre
        cases body with
        | nil => exact absurd hstart.2 (by decide)
        | cons e body =>
          obtain ⟨rfl, hd⟩ := hstart
          have hd := (List.cons_prefix_cons.mp hd).1
          have he : d = e := (List.cons.inj hbody).1
          exact hend ⟨rfl, he.trans hd.symm⟩

/-- The pieces of a string hold neither its quote nor a lone backslash. -/
theorem piece_plain {pieces : List LiteralPiece} (h : ∀ piece ∈ pieces, piece.WellFormed) :
    ∀ piece ∈ pieces, ∀ c, piece = .plain c → c ≠ '"' ∧ c ≠ '\\' := by
  rintro piece hpiece c rfl
  exact h (.plain c) hpiece

namespace RustToken

/-- The character of code that a token is. -/
def code? : RustToken → Option Char
  | .code c => some c
  | _ => none

/-- The tokens as pieces. -/
def codePieces (tokens : List RustToken) : List (Option Char × Nat) :=
  tokens.map fun token => (token.code?, token.text.length)

/-- The pieces of a row of tokens, one for each. -/
@[simp] theorem codePieces_cons (token : RustToken) (tokens : List RustToken) :
    codePieces (token :: tokens) = (token.code?, token.text.length) :: codePieces tokens := rfl

/-- The pieces of two rows of tokens follow each other. -/
@[simp] theorem codePieces_append (tokens tokens' : List RustToken) :
    codePieces (tokens ++ tokens') = codePieces tokens ++ codePieces tokens' := List.map_append

/-- Every piece is of at least one character. -/
theorem codePieces_pos (tokens : List RustToken) : ∀ piece ∈ codePieces tokens, 0 < piece.2 := by
  intro piece hpiece
  obtain ⟨token, -, rfl⟩ := List.mem_map.mp hpiece
  exact List.length_pos_iff.mpr token.text_ne_nil

/-- The pieces are as long together as the text. -/
theorem lengthOf_codePieces (tokens : List RustToken) : lengthOf (codePieces tokens) = (textOf tokens).length := by
  induction tokens with
  | nil => rfl
  | cons token tokens ih => rw [codePieces_cons, lengthOf, ih, textOf_cons, List.length_append]

variable (both : Bool) (acts : Char → Bool) (after : List RustToken) in
/-- **The scanner tells the tokens apart** before some others, and these are the pieces as it sees them: block comments
have no comment in them, and if marks are read again they do not begin with a slash and are not followed by a slash or a
star; raw strings have no quote and no backslash; and lifetimes and labels come in pairs with no quote or backslash
between them and no code that the scanner is to act on. What is between the two of a pair it takes for a literal. -/
inductive ScannedAs : List RustToken → List (Option Char × Nat) → Prop
  | nil : ScannedAs [] []
  | code {c : Char} {tokens : List RustToken} {pieces : List (Option Char × Nat)} (h : ScannedAs tokens pieces) :
    ScannedAs (.code c :: tokens) ((some c, 1) :: pieces)
  | str {literal : List LiteralPiece} {tokens : List RustToken} {pieces : List (Option Char × Nat)}
    (h : ScannedAs tokens pieces) :
    ScannedAs (.str literal :: tokens) ((none, (RustToken.str literal).text.length) :: pieces)
  | rawStr {hashes : Nat} {body : List Char} {tokens : List RustToken} {pieces : List (Option Char × Nat)}
    (hbody : ∀ c ∈ body, c ≠ '"' ∧ c ≠ '\\') (h : ScannedAs tokens pieces) :
    ScannedAs (.rawStr hashes body :: tokens) ((none, (RustToken.rawStr hashes body).text.length) :: pieces)
  | chr {c : Char} {tokens : List RustToken} {pieces : List (Option Char × Nat)} (h : ScannedAs tokens pieces) :
    ScannedAs (.chr c :: tokens) ((none, (RustToken.chr c).text.length) :: pieces)
  | escaped {c : Char} {more : List Char} {tokens : List RustToken} {pieces : List (Option Char × Nat)}
    (h : ScannedAs tokens pieces) :
    ScannedAs (.escaped c more :: tokens) ((none, (RustToken.escaped c more).text.length) :: pieces)
  | lineComment {body : List Char} {tokens : List RustToken} {pieces : List (Option Char × Nat)}
    (h : ScannedAs tokens pieces) :
    ScannedAs (.lineComment body :: tokens) ((none, (RustToken.lineComment body).text.length) :: pieces)
  | blockComment {tail : List Char} {tokens : List RustToken} {pieces : List (Option Char × Nat)}
    (hflat : ¬ ['/', '*'] <:+: tail)
    (hmarks : both = false → tail.head? ≠ some '/' ∧ (textOf (tokens ++ after)).head? ≠ some '/' ∧
      (textOf (tokens ++ after)).head? ≠ some '*') (h : ScannedAs tokens pieces) :
    ScannedAs (.blockComment tail :: tokens) ((none, (RustToken.blockComment tail).text.length) :: pieces)
  | labels {name name' : List Char} {between tokens : List RustToken} {pieces : List (Option Char × Nat)}
    (hquotes : ∀ c ∈ textOf between, c ≠ '\'' ∧ c ≠ '\\') (hidle : ∀ c, .code c ∈ between → acts c = false)
    (h : ScannedAs tokens pieces) :
    ScannedAs (.lifetime name :: (between ++ .lifetime name' :: tokens))
      ((none, (textOf (.lifetime name :: (between ++ [.lifetime name']))).length) :: pieces)

/-- **The scanner tells the tokens apart** before some others. -/
def ScannedUpTo (both : Bool) (acts : Char → Bool) (after tokens : List RustToken) : Prop :=
  ∃ pieces, ScannedAs both acts after tokens pieces

variable {chars : CharClass} {both : Bool} {act : σ → Char → ρ ⊕ σ} {acts : Char → Bool}
  {after tokens : List RustToken} {pieces : List (Option Char × Nat)}

/-- The tail of a row of tokens is lexed as it was. -/
theorem WellLexed.of_append {rest : List RustToken} : ∀ {tokens : List RustToken},
    WellLexed chars (tokens ++ rest) → WellLexed chars rest
  | [], h => h
  | _ :: _, h => WellLexed.of_append h.2.2

/-- A character that the scanner passes over, wherever it stands in code. -/
def PassedOver (act : σ → Char → ρ ⊕ σ) (c : Char) : Prop :=
  c ≠ '"' ∧ c ≠ '\'' ∧ c ≠ '/' ∧ ∀ state, act state c = .inr state

/-- Quotes, slashes and marks are no word. -/
theorem ne_of_word {c d : Char} (hc : chars.word c = true) (hd : d.toNat < 128)
    (hplain : (d.isAlphanum || d == '_') = false) : c ≠ d := by
  rintro rfl
  rw [chars.word_ascii c hd, hplain] at hc
  cases hc

section Passes

variable (hword : ∀ c, chars.word c = true → ∀ state, act state c = .inr state)

include hword

/-- A character of a word is neither a bracket nor a quotation mark nor a slash, so the scan passes
it over. -/
theorem passedOver_of_word {c : Char} (hc : chars.word c = true) : PassedOver act c :=
  ⟨ne_of_word hc (by decide) (by decide), ne_of_word hc (by decide) (by decide), ne_of_word hc (by decide) (by decide),
    hword c hc⟩

/-- A raw string without quotes and backslashes. -/
theorem passes_rawStr (hmark : ∀ state, act state '#' = .inr state) {hashes : Nat} {body rest : List Char}
    (hbody : ∀ c ∈ body, c ≠ '"' ∧ c ≠ '\\') : Passes both act (RustToken.rawStr hashes body).text rest := by
  have hhashes : ∀ c ∈ hashMarks hashes, PassedOver act c := by
    intro c hc
    rw [List.eq_of_mem_replicate hc]
    exact ⟨by decide, by decide, by decide, hmark⟩
  have hfirst : ∀ c ∈ 'r' :: hashMarks hashes, PassedOver act c :=
    List.forall_mem_cons.mpr ⟨passedOver_of_word hword (by rw [chars.word_ascii 'r' (by decide)]; decide), hhashes⟩
  have hraw : (RustToken.rawStr hashes body).text =
      ('r' :: hashMarks hashes) ++ ('"' :: (body ++ ['"']) ++ hashMarks hashes) := by simp [text]
  rw [hraw]
  exact (Passes.idle hfirst).append ((Passes.quoted '"' (.inl rfl) hbody _).append (.idle hhashes))

/-- Two lifetimes or labels with what is between them, read as a literal and a name. -/
theorem passes_labels {name name' : List Char} {between : List RustToken} (hname : ∀ c ∈ name, chars.word c = true)
    (hname' : ∀ c ∈ name', chars.word c = true) (hquotes : ∀ c ∈ textOf between, c ≠ '\'' ∧ c ≠ '\\')
    (rest : List Char) : Passes both act ('\'' :: (name ++ textOf between ++ ['\'']) ++ name') rest := by
  have hfront : ∀ c ∈ name ++ textOf between, c ≠ '\'' ∧ c ≠ '\\' := by
    rw [List.forall_mem_append]
    exact ⟨fun c hc => ⟨ne_of_word (hname c hc) (by decide) (by decide), ne_of_word (hname c hc) (by decide) (by decide)⟩,
      hquotes⟩
  exact (Passes.quoted '\'' (.inr rfl) hfront _).append (.idle fun c hc => passedOver_of_word hword (hname' c hc))

end Passes

/-- A literal of one plain character is passed: the scan looks for the quotation mark behind it. -/
theorem passes_chr {c : Char} (happ : c ≠ '\'') (hslash : c ≠ '\\') (rest : List Char) :
    Passes both act (RustToken.chr c).text rest := by
  have hchar : ∀ piece ∈ [LiteralPiece.plain c], ∀ d, piece = .plain d → d ≠ '\'' ∧ d ≠ '\\' := by
    refine List.forall_mem_singleton.mpr fun d hd => ?_
    cases hd
    exact ⟨happ, hslash⟩
  exact Passes.literal '\'' (.inr rfl) hchar _

/-- A literal with a backslash is passed, however long the escape is. -/
theorem passes_escaped {c : Char} {more : List Char} (hmore : ∀ d ∈ more, d ≠ '\'' ∧ d ≠ '\\') (rest : List Char) :
    Passes both act (RustToken.escaped c more).text rest := by
  obtain ⟨htext, hpieces⟩ := plain_pieces hmore
  have hpieces : ∀ piece ∈ LiteralPiece.escape c :: more.map .plain, ∀ d, piece = .plain d → d ≠ '\'' ∧ d ≠ '\\' :=
    List.forall_mem_cons.mpr ⟨fun d hd => (by cases hd), hpieces⟩
  have hescaped : (RustToken.escaped c more).text =
      '\'' :: ((LiteralPiece.escape c :: more.map .plain).flatMap LiteralPiece.text ++ ['\'']) := by
    rw [List.flatMap_cons, htext]
    rfl
  rw [hescaped]
  exact .literal '\'' (.inr rfl) hpieces _

/-- A token without code to act on. -/
theorem scans_token {token : RustToken} {tokens : List RustToken} {pieces : List (Option Char × Nat)} {rest : List Char}
    (hpass : Passes both act token.text (textOf tokens ++ rest)) (h : Scans both act (textOf tokens) rest pieces) :
    Scans both act (textOf (token :: tokens)) rest ((none, token.text.length) :: pieces) := by
  rw [textOf_cons]
  exact h.pass hpass [(none, token.text.length)] (List.forall_mem_singleton.mpr fun c hc => by cases hc) rfl

/-- **The scanner reads the tokens as these pieces**, if it is idle on blanks, marks and words. -/
theorem ScannedAs.scans (h : ScannedAs both acts after tokens pieces) (hlexed : WellLexed chars (tokens ++ after))
    (hmarks : ∀ c ∈ ['"', '\'', '/', '#', '\n'], ∀ state, act state c = .inr state)
    (hword : ∀ c, chars.word c = true → ∀ state, act state c = .inr state) :
    Scans both act (textOf tokens) (textOf after) pieces := by
  induction h with
  | nil => exact .nil _
  | @code c tokens _ _ ih =>
    obtain ⟨⟨hquote, happ⟩, ⟨hslash, -⟩, hrest⟩ := hlexed
    rw [List.append_eq, textOf_append] at hslash
    refine (ih hrest).code hquote happ hslash fun state hc => ?_
    rw [hc]
    exact hmarks '/' (by decide) state
  | @str literal tokens _ _ ih =>
    obtain ⟨hpieces, -, hrest⟩ := hlexed
    exact scans_token (.literal '"' (.inl rfl) (piece_plain hpieces) _) (ih hrest)
  | @rawStr hashes body tokens _ hbody _ ih =>
    exact scans_token (passes_rawStr hword (hmarks '#' (by decide)) hbody) (ih hlexed.2.2)
  | @chr c tokens _ _ ih =>
    obtain ⟨⟨happ, hslash, -⟩, -, hrest⟩ := hlexed
    exact scans_token (passes_chr happ hslash _) (ih hrest)
  | @escaped c more tokens _ _ ih =>
    obtain ⟨⟨-, hmore⟩, -, hrest⟩ := hlexed
    exact scans_token (passes_escaped (fun d hd => ⟨(hmore d hd).1, (hmore d hd).2.1⟩) _) (ih hrest)
  | @lineComment body tokens _ _ ih =>
    obtain ⟨hbody, hfits, hrest⟩ := hlexed
    rw [List.append_eq, textOf_append] at hfits
    exact scans_token (.line (hmarks '\n' (by decide)) hbody hfits) (ih hrest)
  | @blockComment tail tokens _ hflat hagain _ ih =>
    obtain ⟨htail, -, hrest⟩ := hlexed
    obtain ⟨body, rfl, hbody⟩ := exists_comment_body htail hflat
    rw [textOf_append] at hagain
    have hagain : both = false → body.head? ≠ some '/' ∧ (textOf tokens ++ textOf after).head? ≠ some '/' ∧
        (textOf tokens ++ textOf after).head? ≠ some '*' := by
      intro hboth
      obtain ⟨hfirst, hrest⟩ := hagain hboth
      refine ⟨?_, hrest⟩
      cases body with
      | nil => simp
      | cons d body => exact hfirst
    exact scans_token (.block (hmarks '/' (by decide)) hbody hagain) (ih hrest)
  | @labels name name' between tokens _ hquotes _ _ ih =>
    obtain ⟨⟨-, hname, -⟩, -, hbetween⟩ := hlexed
    rw [List.append_eq, List.append_assoc] at hbetween
    obtain ⟨⟨-, hname', -⟩, -, hrest⟩ := WellLexed.of_append hbetween
    have hall : textOf (.lifetime name :: (between ++ .lifetime name' :: tokens)) =
        ('\'' :: (name ++ textOf between ++ ['\'']) ++ name') ++ textOf tokens := by simp [text]
    rw [hall]
    refine (ih hrest).pass (passes_labels hword hname hname' hquotes _) [_]
      (List.forall_mem_singleton.mpr fun c hc => by cases hc) ?_
    simp [lengthOf, text]

/-- A piece without code. -/
theorem codeRun_none {state : σ} {pieces pieces' : List (Option Char × Nat)} (n : Nat)
    (h : codeRun act state pieces = codeRun act state pieces') :
    codeRun act state ((none, n) :: pieces) = codeRun act state ((none, n) :: pieces') := by
  rw [codeRun, codeRun, h]

/-- Where the scanner is idle between the two of a pair, it does with the pieces what it does with the tokens. -/
theorem ScannedAs.codeRun_eq (h : ScannedAs both acts after tokens pieces)
    (hact : ∀ c, acts c = false → ∀ state, act state c = .inr state) (state : σ) :
    codeRun act state pieces = codeRun act state (codePieces tokens) := by
  induction h generalizing state with
  | nil => rfl
  | @code c tokens pieces _ ih =>
    rw [codePieces_cons, code?, codeRun, codeRun]
    cases act state c with
    | inl result => rfl
    | inr state => exact congrArg _ (ih state)
  | @labels name name' between tokens pieces _ hidle _ ih =>
    have hflat : ∀ piece ∈ codePieces (.lifetime name :: (between ++ [.lifetime name'])), ∀ c, piece.1 = some c →
        ∀ state, act state c = .inr state := by
      intro piece hpiece c hc
      obtain ⟨token, htoken, rfl⟩ := List.mem_map.mp hpiece
      cases token with
      | code d =>
        obtain rfl : d = c := Option.some.inj hc
        have hmem : RustToken.code d ∈ between := by simpa using htoken
        exact hact d (hidle d hmem)
      | _ => cases hc
    have hpieces : codePieces (.lifetime name :: (between ++ .lifetime name' :: tokens)) =
        codePieces (.lifetime name :: (between ++ [.lifetime name'])) ++ codePieces tokens := by
      rw [← codePieces_append, List.cons_append, List.append_assoc, List.singleton_append]
    rw [hpieces, codeRun_idle _ hflat, lengthOf_codePieces, codeRun, ih]
  | str _ ih => exact codeRun_none _ (ih state)
  | rawStr _ _ ih => exact codeRun_none _ (ih state)
  | chr _ ih => exact codeRun_none _ (ih state)
  | escaped _ ih => exact codeRun_none _ (ih state)
  | lineComment _ ih => exact codeRun_none _ (ih state)
  | blockComment _ _ _ ih => exact codeRun_none _ (ih state)

end RustToken

/-! ## C -/

namespace CToken

/-- The character of code that a token is. -/
def code? : CToken → Option Char
  | .code c => some c
  | _ => none

/-- The tokens as pieces. -/
def codePieces (tokens : List CToken) : List (Option Char × Nat) :=
  tokens.map fun token => (token.code?, token.text.length)

/-- The pieces of a row of tokens of C, one for each. -/
@[simp] theorem codePieces_cons (token : CToken) (tokens : List CToken) :
    codePieces (token :: tokens) = (token.code?, token.text.length) :: codePieces tokens := rfl

/-- Every piece of a row of tokens of C is of at least one character. -/
theorem codePieces_pos (tokens : List CToken) : ∀ piece ∈ codePieces tokens, 0 < piece.2 := by
  intro piece hpiece
  obtain ⟨token, -, rfl⟩ := List.mem_map.mp hpiece
  exact List.length_pos_iff.mpr token.text_ne_nil

/-- A condition on each token before some others, with the text that follows the token. -/
def EachBefore (holds : List Char → CToken → Prop) (after : List CToken) : List CToken → Prop
  | [] => True
  | token :: tokens => holds (textOf (tokens ++ after)) token ∧ EachBefore holds after tokens

/-- **The scanner passes over a token**: a line comment is not continued by a backslash, and if marks are read again a
block comment does not begin with a slash and is not followed by a slash or a star. -/
def PassedOver (both : Bool) (rest : List Char) : CToken → Prop
  | .lineComment body => body.getLast? ≠ some '\\'
  | .blockComment body =>
    both = false → body.head? ≠ some '/' ∧ rest.head? ≠ some '/' ∧ rest.head? ≠ some '*'
  | _ => True

/-- What a well-formed literal is made of: its quotation mark, and pieces that do not end it. -/
theorem WellFormed.pieces {quote : Char} {pieces : List LiteralPiece} (h : (CToken.literal quote pieces).WellFormed) :
    (quote = '"' ∨ quote = '\'') ∧ ∀ piece ∈ pieces, ∀ c, piece = .plain c → c ≠ quote ∧ c ≠ '\\' :=
  ⟨h.1, fun piece hpiece c hc => ⟨(h.2 piece hpiece c hc).1, (h.2 piece hpiece c hc).2.1⟩⟩

/-- **The scanner acts on the code of the tokens.** -/
theorem scans {both : Bool} {act : σ → Char → ρ ⊕ σ}
    (hidle : ∀ c ∈ ['"', '\'', '/', '#', '\n'], ∀ state, act state c = .inr state) {after : List CToken} :
    ∀ {tokens : List CToken}, EachBefore (PassedOver both) after tokens → WellLexed (tokens ++ after) →
      Scans both act (textOf tokens) (textOf after) (codePieces tokens)
  | [], _, _ => .nil _
  | token :: tokens, ⟨hpassed, hbefore⟩, ⟨hformed, hfits, hrest⟩ => by
    have ih := scans hidle hbefore hrest
    rw [List.append_eq, textOf_append] at hfits
    rw [textOf_append] at hpassed
    have hone : token.code? = none → Passes both act token.text (textOf tokens ++ textOf after) →
        Scans both act (textOf (token :: tokens)) (textOf after) (codePieces (token :: tokens)) := by
      intro hcode hpass
      rw [textOf_cons, codePieces_cons, hcode]
      exact ih.pass hpass [(none, token.text.length)] (List.forall_mem_singleton.mpr fun c hc => by cases hc) rfl
    cases token with
    | code c =>
      refine ih.code hformed.1 hformed.2 hfits fun state hc => ?_
      rw [hc]
      exact hidle '/' (by decide) state
    | literal quote pieces =>
      obtain ⟨hquote, hplain⟩ := hformed.pieces
      exact hone rfl (.literal quote hquote hplain _)
    | lineComment body => exact hone rfl (.line (hidle '\n' (by decide)) hformed hfits)
    | blockComment body => exact hone rfl (.block (hidle '/' (by decide)) hformed hpassed)

end CToken

end Assure.Library
