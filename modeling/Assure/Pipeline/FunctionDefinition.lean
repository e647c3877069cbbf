import Assure.Pipeline.BlockEnd

/-!
# Definitions of functions

`extractFunctionDefinitionByName` looks for the first line that begins with the head of a function of a name, scans
the signature for the first brace or semicolon outside round and square brackets, and then the body for the brace
that closes it. The head it looks for has `pub`, `unsafe` and `extern` with an ABI before `fn`, each on demand; a
declaration in an `extern` block is given in a block of its own.

The condition is shown to be enough, for definitions with any attributes, qualifiers, signature and
body. It is not necessary: the same text may stand in a comment before the definition, and then the
result is right by accident.
-/

namespace Assure

open Assure.Library
open Assure.Library.RustToken (textOf textOf_cons textOf_append WellLexed ScannedAs)

variable (chars : CharClass)

/-! ## The pattern -/

/-- `word\s+`: what follows a match. -/
def wordEnd? (word text : List Char) : Option (List Char) :=
  let rest := text.drop word.length
  if word <+: text ∧ rest.takeWhile chars.space ≠ [] then some (rest.dropWhile chars.space) else none

/-- `"[^"]+"`: what follows a match. -/
def abiEnd? : List Char → Option (List Char)
  | [] => none
  | c :: text =>
    if c = '"' ∧ text.takeWhile (· ≠ '"') ≠ [] ∧ text.dropWhile (· ≠ '"') ≠ [] then
      some (text.dropWhile (· ≠ '"')).tail
    else none

/-- `extern\s+"[^"]+"\s+`: what follows a match. -/
def externEnd? (text : List Char) : Option (List Char) :=
  (wordEnd? chars ['e', 'x', 't', 'e', 'r', 'n'] text).bind fun abi =>
    (abiEnd? abi).bind fun rest => wordEnd? chars [] rest

/-- **The head of a function**: what follows a match, for a name that is an identifier. -/
def functionHead? (name : List Char) (before : Option Char) (text : List Char) : Option (List Char) :=
  if before.all (· = '\n') then
    let text := text.dropWhile chars.space
    let text := (wordEnd? chars ['p', 'u', 'b'] text).getD text
    let text := (wordEnd? chars ['u', 'n', 's', 'a', 'f', 'e'] text).getD text
    let text := (externEnd? chars text).getD text
    (wordEnd? chars ['f', 'n'] text).bind fun named =>
      let rest := named.drop name.length
      if name <+: named ∧ (name.getLast?.any chars.word) ≠ (rest.head?.any chars.word) then some rest else none
  else none

/-- `re.search`: the text from the first match on, and what follows the match. -/
def searchHead (name : List Char) : Option Char → List Char → Option (List Char × List Char)
  | before, [] => (functionHead? chars name before []).map fun rest => ([], rest)
  | before, c :: text =>
    match functionHead? chars name before (c :: text) with
    | some rest => some (c :: text, rest)
    | none => searchHead name (some c) text

/-! ## The scans -/

/-- What is done at a character of the signature, so many round and square brackets being open: a semicolon or a
brace outside brackets ends it. -/
def signatureAct (depths : Nat × Nat) (ch : Char) : Bool ⊕ (Nat × Nat) :=
  if ch = '(' then .inr (depths.1 + 1, depths.2)
  else if ch = ')' then .inr (depths.1 - 1, depths.2)
  else if ch = '[' then .inr (depths.1, depths.2 + 1)
  else if ch = ']' then .inr (depths.1, depths.2 - 1)
  else if ch = ';' ∧ depths = (0, 0) then .inl false
  else if ch = '\x7b' ∧ depths = (0, 0) then .inl true
  else .inr depths

/-- `(?:unsafe\s+)?extern\s+"[^"]+"\s*$`: the match in a line before a brace, which has no blanks at its end. -/
def externHeader? : List Char → Option (List Char)
  | [] => none
  | c :: line =>
    let text := (wordEnd? chars ['u', 'n', 's', 'a', 'f', 'e'] (c :: line)).getD (c :: line)
    if ((wordEnd? chars ['e', 'x', 't', 'e', 'r', 'n'] text).bind abiEnd?).any
        (fun rest => rest.all chars.space) then some (c :: line)
    else externHeader? line

/-- The headers of the blocks that are open after so many characters, the innermost first: what is left of the
characters, the scanner's state, and the line so far. -/
def openHeaders : Nat → Option Inside → Bool → List Char → List (Option (List Char)) → List Char →
    List (Option (List Char))
  | 0, _, _, _, stack, _ => stack
  | _, _, _, _, stack, [] => stack
  | n + 1, inside, escaped, line, stack, ch :: rest =>
    match nextInside inside escaped ch rest.head? with
    | some (inside', escaped', mark) =>
      match rest with
      | [] => stack
      | nxt :: rest =>
        if mark then openHeaders (n - 1) inside' escaped' (line ++ [ch, nxt]) stack rest
        else
          let line := if inside = some .lineComment ∧ ch = '\n' then [] else line ++ [ch]
          openHeaders n inside' escaped' line stack (nxt :: rest)
    | none =>
      if ch = '\n' then openHeaders n none false [] stack rest
      else
        let stack :=
          if ch = '\x7b' then externHeader? chars (strip chars (String.ofList line)).toList :: stack
          else if ch = '\x7d' then stack.tail
          else stack
        openHeaders n none false (line ++ [ch]) stack rest

/-- **`_find_enclosing_extern_header`** -/
def findEnclosingExternHeader (code : List Char) (position : Nat) : List Char :=
  ((openHeaders chars position none false [] [] code).head?.bind id).getD []

/-- **`extractFunctionDefinitionByName`** -/
def extractFunctionDefinitionByName (code functionName : String) : String :=
  if functionName = "" then ""
  else match searchHead chars functionName.toList none code.toList with
    | none => ""
    | some (start, rest) =>
      let matched := start.length - rest.length
      match scanCode true signatureAct none false (0, 0) rest with
      | none => ""
      | some (false, n) =>
        let declaration := strip chars (String.ofList (start.take (matched + n)))
        let header := findEnclosingExternHeader chars code.toList (code.length - start.length)
        if header = [] then declaration
        else String.ofList header ++ " \x7b\n    " ++ declaration ++ "\n\x7d"
      | some (true, n) =>
        match scanCode true braceAct none false 0 (rest.drop (n - 1)) with
        | none => ""
        | some (_, m) => strip chars (String.ofList (start.take (matched + (n - 1) + m)))

/-! ## Definitions in a source -/

/-- Blanks. -/
def IsBlanks (blanks : List Char) : Prop := blanks ≠ [] ∧ ∀ c ∈ blanks, chars.space c = true

/-- **The heads that the pattern finds**: the blanks behind `pub` and `unsafe`, where they stand, the ABI behind
`extern` with the blanks around it, and the blanks behind `fn`. -/
structure PlainHead where
  visibility : Option (List Char)
  safety : Option (List Char)
  linkage : Option (List Char × List Char × List Char)
  blanks : List Char
  name : List Char
  visibility_blanks : ∀ blanks ∈ visibility, IsBlanks chars blanks
  safety_blanks : ∀ blanks ∈ safety, IsBlanks chars blanks
  linkage_blanks : ∀ abi ∈ linkage, IsBlanks chars abi.1 ∧ (abi.2.1 ≠ [] ∧ '"' ∉ abi.2.1) ∧ IsBlanks chars abi.2.2
  blanks_blanks : IsBlanks chars blanks
  name_ne_nil : name ≠ []
  name_word : ∀ c ∈ name, chars.word c = true

variable {chars}

namespace PlainHead

variable (head : PlainHead chars)

/-- From `fn` on. -/
def keyword : List Char := ['f', 'n'] ++ (head.blanks ++ head.name)

/-- The ABI, where it stands. -/
def abi : List Char :=
  head.linkage.elim [] fun abi => ['e', 'x', 't', 'e', 'r', 'n'] ++ (abi.1 ++ '"' :: (abi.2.1 ++ '"' :: abi.2.2))

/-- **The text of a head.** -/
def text : List Char :=
  head.visibility.elim [] (['p', 'u', 'b'] ++ ·) ++ (head.safety.elim [] (['u', 'n', 's', 'a', 'f', 'e'] ++ ·) ++
    (head.abi ++ head.keyword))

end PlainHead

/-- **A definition of a function in a source**: what is before it, its attributes and qualifiers up to the name, the
rest of its signature, its body without the braces, and what is after it. -/
structure DefinedFunction where
  front : List RustToken
  opening : List RustToken
  signature : List RustToken
  body : List RustToken
  after : List RustToken

namespace DefinedFunction

/-- The tokens of the source. -/
def tokens (d : DefinedFunction) : List RustToken :=
  d.front ++ (d.opening ++ (d.signature ++ .code '\x7b' :: (d.body ++ .code '\x7d' :: d.after)))

/-- **The text of the definition.** -/
def definition (d : DefinedFunction) : List Char :=
  textOf d.opening ++ (textOf d.signature ++ '\x7b' :: (textOf d.body ++ ['\x7d']))

end DefinedFunction

/-- **Semicolons and braces stand in brackets**, so many being open, and the brackets are closed. -/
def InBrackets (round square : Nat) : List Char → Prop
  | [] => round = 0 ∧ square = 0
  | c :: code => (c = ';' ∨ c = '\x7b' → round ≠ 0 ∨ square ≠ 0) ∧
    InBrackets (if c = '(' then round + 1 else if c = ')' then round - 1 else round)
      (if c = '[' then square + 1 else if c = ']' then square - 1 else square) code

/-- **The braces are matched**, so many being open. -/
def BracesClose (depth : Int) : List Char → Prop
  | [] => depth = 0
  | c :: code => 0 ≤ depth + (RustToken.code c).braces ∧ BracesClose (depth + (RustToken.code c).braces) code

/-- The code in the pieces of a text. -/
def codeIn (pieces : List (Option Char × Nat)) : List Char := pieces.filterMap Prod.fst

/-- **The definition is found and its ends are seen**: its head is one that the pattern finds, at the beginning of a
line and nowhere before; and the scanner tells the tokens of the signature and of the body apart, where what it takes
for code has semicolons and braces only in brackets, and matched braces. -/
structure Extractable (chars : CharClass) (name : List Char) (d : DefinedFunction) : Prop where
  head : ∃ head : PlainHead chars, head.name = name ∧ textOf d.opening = head.text
  first : ∃ lines blanks, textOf d.front = lines ++ blanks ∧ (∀ c ∈ blanks, chars.space c = true) ∧
    (lines.getLast?.all (· = '\n')) = true ∧ ∀ before line, lines = before ++ line → line ≠ [] →
      functionHead? chars name (Pattern.lastOr none before)
        (line ++ (blanks ++ (d.definition ++ textOf d.after))) = none
  signature : ∃ pieces, ScannedAs true (fun _ => false) (.code '\x7b' :: (d.body ++ .code '\x7d' :: d.after))
    d.signature pieces ∧ InBrackets 0 0 (codeIn pieces)
  body : ∃ pieces, ScannedAs true (fun _ => false) (.code '\x7d' :: d.after) d.body pieces ∧
    BracesClose 0 (codeIn pieces)

/-! ## What the pattern finds -/

/-- Blanks end where something else begins. -/
theorem takeWhile_blanks {blanks rest : List Char} (hblanks : ∀ c ∈ blanks, chars.space c = true)
    (hrest : rest.head?.any chars.space = false) :
    (blanks ++ rest).takeWhile chars.space = blanks ∧ (blanks ++ rest).dropWhile chars.space = rest := by
  have hstop : rest.takeWhile chars.space = [] ∧ rest.dropWhile chars.space = rest := by
    cases rest with
    | nil => exact ⟨rfl, rfl⟩
    | cons c rest =>
      have hc : chars.space c = false := hrest
      exact ⟨List.takeWhile_cons_of_neg (by simp [hc]), List.dropWhile_cons_of_neg (by simp [hc])⟩
  rw [List.takeWhile_append_of_pos hblanks, List.dropWhile_append_of_pos hblanks, hstop.1, hstop.2, List.append_nil]
  exact ⟨rfl, rfl⟩

/-- A word with blanks behind it is passed over with them. -/
theorem wordEnd?_append {word blanks rest : List Char} (hblanks : IsBlanks chars blanks)
    (hrest : rest.head?.any chars.space = false) : wordEnd? chars word (word ++ (blanks ++ rest)) = some rest := by
  obtain ⟨htake, hdrop⟩ := takeWhile_blanks hblanks.2 hrest
  have hword : (word ++ (blanks ++ rest)).drop word.length = blanks ++ rest := List.drop_left
  rw [wordEnd?, hword, htake, hdrop]
  exact if_pos ⟨List.prefix_append _ _, hblanks.1⟩

/-- A text that begins otherwise does not begin with the word. -/
theorem wordEnd?_of_head_ne {c d : Char} {word rest : List Char} (h : d ≠ c) :
    wordEnd? chars (c :: word) (d :: rest) = none :=
  if_neg fun hmatch => h (List.cons_prefix_cons.mp hmatch.1).1.symm

/-- A word that stands there on demand. -/
theorem wordEnd?_getD {c : Char} {word : List Char} {blanks : Option (List Char)}
    (hblanks : ∀ l ∈ blanks, IsBlanks chars l) {d : Char} {rest : List Char} (hne : d ≠ c)
      (hd : chars.space d = false) :
    (wordEnd? chars (c :: word) (blanks.elim [] ((c :: word) ++ ·) ++ d :: rest)).getD
      (blanks.elim [] ((c :: word) ++ ·) ++ d :: rest) = d :: rest := by
  cases blanks with
  | none => rw [Option.elim_none, List.nil_append, wordEnd?_of_head_ne hne, Option.getD_none]
  | some blanks =>
    have hhead : (d :: rest).head?.any chars.space = false := hd
    rw [Option.elim_some, List.append_assoc, wordEnd?_append (hblanks blanks rfl) hhead, Option.getD_some]

/-- The name of an ABI ends at its quotation mark. -/
theorem abiEnd?_append {abi : List Char} (hne : abi ≠ []) (habi : '"' ∉ abi) (rest : List Char) :
    abiEnd? ('"' :: (abi ++ '"' :: rest)) = some rest := by
  have hplain : ∀ c ∈ abi, decide (c ≠ '"') = true := by
    intro c hc
    refine decide_eq_true ?_
    rintro rfl
    exact habi hc
  have htake : (abi ++ '"' :: rest).takeWhile (· ≠ '"') = abi := by
    rw [List.takeWhile_append_of_pos hplain]
    simp
  have hdrop : (abi ++ '"' :: rest).dropWhile (· ≠ '"') = '"' :: rest := by
    rw [List.dropWhile_append_of_pos hplain]
    simp
  rw [abiEnd?, htake, hdrop]
  exact if_pos ⟨rfl, hne, List.cons_ne_nil _ _⟩

/-- Letters are no blanks. -/
theorem space_letter {c : Char} (hc : c.toNat < 128) (hword : (c.isAlphanum || c == '_') = true) :
    chars.space c = false :=
  chars.disjoint c ((chars.word_ascii c hc).trans hword)

section

variable (head : PlainHead chars)

/-- The ABI, if it stands there. -/
theorem PlainHead.externEnd?_abi (rest : List Char) :
    (externEnd? chars (head.abi ++ 'f' :: rest)).getD (head.abi ++ 'f' :: rest) = 'f' :: rest := by
  have hf : ('f' :: rest).head?.any chars.space = false := space_letter (by decide) (by decide)
  have hquote : ∀ text, ('"' :: text).head?.any chars.space = false := by
    intro text
    show chars.space '"' = false
    rw [chars.space_ascii _ (by decide)]
    decide
  cases habi : head.linkage with
  | none =>
    have htext : head.abi = [] := by
      rw [PlainHead.abi, habi]
      rfl
    rw [htext, List.nil_append, externEnd?, wordEnd?_of_head_ne (by decide)]
    rfl
  | some abi =>
    obtain ⟨hbefore, ⟨hne, hquotes⟩, hafter⟩ := head.linkage_blanks abi habi
    have htext : head.abi ++ 'f' :: rest = ['e', 'x', 't', 'e', 'r', 'n'] ++
        (abi.1 ++ '"' :: (abi.2.1 ++ '"' :: (abi.2.2 ++ 'f' :: rest))) := by
      rw [PlainHead.abi, habi]
      simp
    have hblanks : wordEnd? chars [] (abi.2.2 ++ 'f' :: rest) = some ('f' :: rest) := wordEnd?_append hafter hf
    rw [htext, externEnd?, wordEnd?_append hbefore (hquote _), Option.bind_some, abiEnd?_append hne hquotes,
      Option.bind_some, hblanks, Option.getD_some]

/-- `fn`, the blanks and the name. -/
theorem PlainHead.wordEnd?_keyword (rest : List Char) :
    wordEnd? chars ['f', 'n'] (head.keyword ++ rest) = some (head.name ++ rest) := by
  have hname : (head.name ++ rest).head?.any chars.space = false := by
    obtain ⟨c, name, hname⟩ := List.exists_cons_of_ne_nil head.name_ne_nil
    have hc : chars.word c = true := head.name_word c (by rw [hname]; exact List.mem_cons_self)
    rw [hname]
    exact chars.disjoint c hc
  rw [PlainHead.keyword, List.append_assoc, List.append_assoc]
  exact wordEnd?_append head.blanks_blanks hname

/-- **A head that the pattern finds is found**, at the beginning of a line and behind blanks. -/
theorem functionHead?_text {before : Option Char} (hbefore : before.all (· = '\n') = true) {blanks rest : List Char}
    (hblanks : ∀ c ∈ blanks, chars.space c = true) (hrest : rest.head?.any chars.word = false) :
    functionHead? chars head.name before (blanks ++ (head.text ++ rest)) = some rest := by
  have hletter : ∀ {c : Char}, c ∈ ['p', 'u', 'e', 'f'] → chars.space c = false := by
    intro c hc
    have hword : ['p', 'u', 'e', 'f'].all (fun c => decide (c.toNat < 128) && (c.isAlphanum || c == '_')) = true := by
      decide
    obtain ⟨hlt, hc⟩ := Bool.and_eq_true_iff.mp (List.all_eq_true.mp hword c hc)
    exact space_letter (of_decide_eq_true hlt) hc
  -- each part of the head begins with a letter of its own
  obtain ⟨more, hkeyword⟩ : ∃ more, head.keyword ++ rest = 'f' :: more := ⟨_, rfl⟩
  obtain ⟨c, abi, habi, hc⟩ : ∃ c abi, head.abi ++ 'f' :: more = c :: abi ∧ c ∈ ['e', 'f'] := by
    rw [PlainHead.abi]
    cases head.linkage with
    | none => exact ⟨'f', _, rfl, by decide⟩
    | some abi => exact ⟨'e', _, rfl, by decide⟩
  obtain ⟨d, safety, hsafety, hd⟩ : ∃ d safety, head.safety.elim [] (['u', 'n', 's', 'a', 'f', 'e'] ++ ·) ++ c :: abi =
      d :: safety ∧ d ∈ ['u', 'e', 'f'] := by
    cases head.safety with
    | none => exact ⟨c, _, rfl, List.mem_cons_of_mem _ hc⟩
    | some blanks => exact ⟨'u', _, rfl, by decide⟩
  obtain ⟨e, all, hall, he⟩ : ∃ e all, head.visibility.elim [] (['p', 'u', 'b'] ++ ·) ++ d :: safety = e :: all ∧
      e ∈ ['p', 'u', 'e', 'f'] := by
    cases head.visibility with
    | none => exact ⟨d, _, rfl, List.mem_cons_of_mem _ hd⟩
    | some blanks => exact ⟨'p', _, rfl, by decide⟩
  have htext : head.text ++ rest = head.visibility.elim [] (['p', 'u', 'b'] ++ ·) ++
      (head.safety.elim [] (['u', 'n', 's', 'a', 'f', 'e'] ++ ·) ++ (head.abi ++ (head.keyword ++ rest))) := by
    simp only [PlainHead.text, List.append_assoc]
  have hpub := @wordEnd?_getD chars 'p' ['u', 'b'] head.visibility head.visibility_blanks d safety
    (fun h => absurd hd (h ▸ by decide)) (hletter (List.mem_cons_of_mem _ hd))
  have hunsafe := @wordEnd?_getD chars 'u' ['n', 's', 'a', 'f', 'e'] head.safety head.safety_blanks c abi
    (fun h => absurd hc (h ▸ by decide)) (hletter (List.mem_cons_of_mem _ (List.mem_cons_of_mem _ hc)))
  have hstart : (blanks ++ (head.text ++ rest)).dropWhile chars.space =
      head.visibility.elim [] (['p', 'u', 'b'] ++ ·) ++ d :: safety := by
    rw [htext, hkeyword, habi, hsafety, hall]
    have hhead : (e :: all).head?.any chars.space = false := hletter he
    exact (takeWhile_blanks hblanks hhead).2
  have hname : head.name.getLast?.any chars.word = true := by
    rw [List.getLast?_eq_some_getLast head.name_ne_nil]
    exact head.name_word _ (List.getLast_mem _)
  rw [functionHead?, if_pos hbefore]
  dsimp only
  rw [hstart, hpub, ← hsafety, hunsafe, ← habi, head.externEnd?_abi, ← hkeyword, head.wordEnd?_keyword,
    Option.bind_some, List.drop_left, hname, hrest]
  exact if_pos ⟨List.prefix_append _ _, by decide⟩

end

/-- **The first match** is behind what has none. -/
theorem searchHead_skip {name : List Char} {text : List Char} : ∀ {front : List Char} {before : Option Char},
    (∀ first line, front = first ++ line → line ≠ [] →
      functionHead? chars name (Pattern.lastOr before first) (line ++ text) = none) →
      searchHead chars name before (front ++ text) = searchHead chars name (Pattern.lastOr before front) text
  | [], _, _ => rfl
  | c :: front, before, h => by
    have hnone : functionHead? chars name before (c :: (front ++ text)) = none :=
      h [] (c :: front) rfl (List.cons_ne_nil _ _)
    rw [List.cons_append, searchHead, hnone, Pattern.lastOr_cons]
    exact searchHead_skip fun first line hfront hline => by
      have := h (c :: first) line (congrArg (c :: ·) hfront) hline
      rwa [Pattern.lastOr_cons] at this

/-- A head that stands at the place is found there. -/
theorem searchHead_here {name : List Char} {before : Option Char} {text rest : List Char}
    (h : functionHead? chars name before text = some rest) : searchHead chars name before text = some (text, rest) := by
  cases text with
  | nil => rw [searchHead, h]; rfl
  | cons c text => rw [searchHead, h]

/-! ## The signature and the body -/

/-- The scanner goes on to the end of a signature. -/
theorem codeRun_signature : ∀ {pieces : List (Option Char × Nat)} {round square : Nat},
    InBrackets round square (codeIn pieces) → codeRun signatureAct (round, square) pieces = .inr (0, 0)
  | [], _, _, h => by
    obtain ⟨rfl, rfl⟩ := h
    rfl
  | (none, n) :: pieces, round, square, h => by
    have hrest : InBrackets round square (codeIn pieces) := h
    rw [codeRun, codeRun_signature hrest]
    rfl
  | (some c, n) :: pieces, round, square, ⟨hstop, hrest⟩ => by
    have hact : signatureAct (round, square) c =
        .inr (if c = '(' then round + 1 else if c = ')' then round - 1 else round,
          if c = '[' then square + 1 else if c = ']' then square - 1 else square) := by
      have hopen : (c = ';' ∨ c = '\x7b') → (round, square) ≠ (0, 0) := by
        intro hc hzero
        obtain ⟨rfl, rfl⟩ := Prod.mk.inj hzero
        rcases hstop hc with h | h <;> exact h rfl
      by_cases hround : c = '(' ∨ c = ')' ∨ c = '[' ∨ c = ']'
      · rcases hround with rfl | rfl | rfl | rfl <;> rfl
      · simp only [not_or] at hround
        obtain ⟨h1, h2, h3, h4⟩ := hround
        rw [signatureAct, if_neg h1, if_neg h2, if_neg h3, if_neg h4, if_neg fun h => hopen (.inl h.1) h.2,
          if_neg fun h => hopen (.inr h.1) h.2, if_neg h1, if_neg h2, if_neg h3, if_neg h4]
    rw [codeRun, hact]
    dsimp only
    rw [codeRun_signature hrest]
    rfl

/-- The scanner goes on to the end of a body. -/
theorem codeRun_body : ∀ {pieces : List (Option Char × Nat)} {depth : Int}, 0 ≤ depth →
    BracesClose depth (codeIn pieces) → codeRun braceAct (depth + 1) pieces = .inr 1
  | [], _, _, h => by
    rw [show _ = (0 : Int) from h]
    rfl
  | (none, n) :: pieces, depth, hdepth, h => by
    have hrest : BracesClose depth (codeIn pieces) := h
    rw [codeRun, codeRun_body hdepth hrest]
    rfl
  | (some c, n) :: pieces, depth, hdepth, ⟨hle, hrest⟩ => by
    have hact : braceAct (depth + 1) c = .inr (depth + (RustToken.code c).braces + 1) := by
      rw [(braceAct_eq (by omega) c).2, if_neg (by omega), Int.add_right_comm]
    rw [codeRun, hact]
    dsimp only
    rw [codeRun_body hle hrest]
    rfl

/-- Blanks before a text are stripped. -/
theorem strip_blanks {blanks text : List Char} (hblanks : ∀ c ∈ blanks, chars.space c = true)
    (hfirst : text.head?.any chars.space = false) (hlast : text.getLast?.any chars.space = false) :
    strip chars (String.ofList (blanks ++ text)) = String.ofList text := by
  have hback : text.reverse.dropWhile chars.space = text.reverse := by
    have hhead : text.reverse.head?.any chars.space = false := by rw [List.head?_reverse]; exact hlast
    exact (@takeWhile_blanks chars [] _ (List.forall_mem_nil _) hhead).2
  rw [strip, String.toList_ofList, (takeWhile_blanks hblanks hfirst).2, hback, List.reverse_reverse]

/-- The signature is scanned to its brace. -/
theorem scanCode_signature {sig rest : List Char} {pieces : List (Option Char × Nat)}
    (h : Scans true signatureAct sig ('\x7b' :: rest) pieces) (hpieces : InBrackets 0 0 (codeIn pieces)) :
    scanCode true signatureAct none false (0, 0) (sig ++ '\x7b' :: rest) = some (true, sig.length + 1) := by
  have hstop : scanCode true signatureAct none false (0, 0) ('\x7b' :: rest) = some (true, 1) :=
    scanCode_stop true signatureAct (by decide) (by decide) (by decide) rfl
  rw [h, codeRun_signature hpieces, goOn, hstop, further_some]

/-- The body is scanned to its last brace. -/
theorem scanCode_body {body rest : List Char} {pieces : List (Option Char × Nat)}
    (h : Scans true braceAct body ('\x7d' :: rest) pieces) (hpieces : BracesClose 0 (codeIn pieces)) :
    scanCode true braceAct none false 0 ('\x7b' :: (body ++ '\x7d' :: rest)) = some ((), 1 + (body.length + 1)) := by
  have hopen : scanCode true braceAct none false 0 ('\x7b' :: (body ++ '\x7d' :: rest)) =
      further 1 (scanCode true braceAct none false 1 (body ++ '\x7d' :: rest)) :=
    scanCode_code true braceAct (by decide) (by decide) (fun h => absurd h (by decide)) rfl
  have hstop : scanCode true braceAct none false 1 ('\x7d' :: rest) = some ((), 1) :=
    scanCode_stop true braceAct (by decide) (by decide) (by decide) rfl
  have hrun : codeRun braceAct 1 pieces = .inr 1 := codeRun_body (Int.le_refl 0) hpieces
  rw [hopen, h, hrun, goOn, hstop, further_some, further_some]

/-- The characters at which something is done in a signature. -/
def signatureMarks : List Char := ['(', ')', '[', ']', ';', '\x7b']

/-- A character that is no mark of a signature keeps the depths. -/
theorem signatureAct_idle {c : Char} (h : c ∉ signatureMarks) (depths : Nat × Nat) :
    signatureAct depths c = .inr depths := by
  simp only [signatureMarks, List.mem_cons, List.not_mem_nil, or_false, not_or] at h
  obtain ⟨h1, h2, h3, h4, h5, h6⟩ := h
  rw [signatureAct, if_neg h1, if_neg h2, if_neg h3, if_neg h4, if_neg fun h => h5 h.1, if_neg fun h => h6 h.1]

/-- Nor do the marks of literals, comments and raw strings change them. -/
theorem signatureAct_marks : ∀ c ∈ ['"', '\'', '/', '#', '\n'], ∀ depths, signatureAct depths c = .inr depths := by
  intro c hc
  have hmarks : ['"', '\'', '/', '#', '\n'].all (fun c => decide (c ∉ signatureMarks)) = true := by decide
  exact signatureAct_idle (of_decide_eq_true (List.all_eq_true.mp hmarks c hc))

/-- Nor does a character of a word. -/
theorem signatureAct_word {c : Char} (h : chars.word c = true) (depths : Nat × Nat) : signatureAct depths c =
    .inr depths := by
  refine signatureAct_idle (fun hc => ?_) depths
  have hmarks : signatureMarks.all (fun c => decide (c.toNat < 128) && !(c.isAlphanum || c == '_')) = true := by decide
  obtain ⟨hlt, hword⟩ := Bool.and_eq_true_iff.mp (List.all_eq_true.mp hmarks c hc)
  rw [chars.word_ascii c (of_decide_eq_true hlt)] at h
  rw [h] at hword
  exact absurd hword (by decide)

/-- A head begins with a letter. -/
theorem PlainHead.text_head (head : PlainHead chars) (rest : List Char) :
    (head.text ++ rest).head?.any chars.space = false := by
  have hletter : ∀ {c : Char}, c ∈ ['p', 'u', 'e', 'f'] → chars.space c = false := by
    intro c hc
    have hword : ['p', 'u', 'e', 'f'].all (fun c => decide (c.toNat < 128) && (c.isAlphanum || c == '_')) = true := by
      decide
    obtain ⟨hlt, hc⟩ := Bool.and_eq_true_iff.mp (List.all_eq_true.mp hword c hc)
    exact space_letter (of_decide_eq_true hlt) hc
  rw [PlainHead.text, PlainHead.abi]
  cases head.visibility with
  | some blanks => exact hletter (c := 'p') (by decide)
  | none =>
    cases head.safety with
    | some blanks => exact hletter (c := 'u') (by decide)
    | none =>
      cases head.linkage with
      | some abi => exact hletter (c := 'e') (by decide)
      | none => exact hletter (c := 'f') (by decide)

variable (chars) in
/-- **A definition that is found and whose ends are seen is given**, and nothing else: the text from the beginning of
its head to the closing brace. Found means that the pattern takes its head at the beginning of a line and nowhere
before. -/
theorem extractFunctionDefinitionByName_definition (name : String) (d : DefinedFunction)
    (hlexed : WellLexed chars d.tokens) (hname : (textOf d.signature ++ ['\x7b']).head?.any chars.word = false)
    (h : Extractable chars name.toList d) :
    extractFunctionDefinitionByName chars (String.ofList (textOf d.tokens)) name = String.ofList d.definition := by
  obtain ⟨⟨head, hhead, hopening⟩, ⟨lines, blanks, hfront, hblanks, hline, hfirst⟩, ⟨pieces, hsignature, hbrackets⟩,
    ⟨pieces', hbody, hbraces⟩⟩ := h
  have hsigned : WellLexed chars (d.signature ++ .code '\x7b' :: (d.body ++ .code '\x7d' :: d.after)) :=
    WellLexed.of_append (WellLexed.of_append hlexed)
  have hbodied : WellLexed chars (d.body ++ .code '\x7d' :: d.after) := (WellLexed.of_append hsigned).2.2
  obtain ⟨rest, hall⟩ : ∃ rest, rest = textOf d.signature ++ '\x7b' :: (textOf d.body ++ '\x7d' :: textOf d.after) :=
    ⟨_, rfl⟩
  have htext : textOf d.tokens = lines ++ (blanks ++ (head.text ++ rest)) := by
    rw [hall, DefinedFunction.tokens, textOf_append, textOf_append, hfront, hopening]
    simp [RustToken.text]
  have hdefinition : d.definition ++ textOf d.after = head.text ++ rest := by
    rw [hall, DefinedFunction.definition, hopening]
    simp
  have hrest : rest.head?.any chars.word = false := by
    rw [hall]
    cases hsig : textOf d.signature with
    | nil =>
      rw [hsig] at hname
      exact hname
    | cons c sig =>
      rw [hsig] at hname
      exact hname
  have hbefore : (Pattern.lastOr none lines).all (· = '\n') = true := by
    rw [Pattern.lastOr, Option.or_none]
    exact hline
  -- the first match is the head, with the blanks before it
  have hsearch : searchHead chars name.toList none (textOf d.tokens) = some (blanks ++ (head.text ++ rest), rest) := by
    rw [htext, searchHead_skip fun first line hlines hne => by rw [← hdefinition]; exact hfirst first line hlines hne]
    refine searchHead_here ?_
    rw [← hhead]
    exact functionHead?_text head hbefore hblanks hrest
  have hscans : Scans true signatureAct _ _ pieces :=
    hsignature.scans hsigned signatureAct_marks fun c hc => signatureAct_word hc
  have hscans' : Scans true braceAct _ _ pieces' :=
    hbody.scans hbodied braceAct_marks fun c hc => braceAct_idle (isBrace_word hc)
  simp only [textOf_append, textOf_cons, RustToken.text, List.singleton_append] at hscans hscans'
  have hsig : scanCode true signatureAct none false (0, 0) rest = some (true, (textOf d.signature).length + 1) :=
    hall ▸ scanCode_signature hscans hbrackets
  have hdrop : rest.drop ((textOf d.signature).length + 1 - 1) =
      '\x7b' :: (textOf d.body ++ '\x7d' :: textOf d.after) := hall ▸ List.drop_left
  have hend := scanCode_body hscans' hbraces
  have hne : name ≠ "" := by
    rintro rfl
    exact head.name_ne_nil hhead
  have hmatched : (blanks ++ (head.text ++ rest)).length - rest.length = (blanks ++ head.text).length := by
    rw [← List.append_assoc, List.length_append, Nat.add_sub_cancel]
  have htake : (blanks ++ (head.text ++ rest)).take ((blanks ++ head.text).length +
      ((textOf d.signature).length + 1 - 1) + (1 + ((textOf d.body).length + 1))) = blanks ++ d.definition := by
    have hlength : (blanks ++ head.text).length + ((textOf d.signature).length + 1 - 1) +
        (1 + ((textOf d.body).length + 1)) = (blanks ++ d.definition).length := by
      simp only [DefinedFunction.definition, hopening, List.length_append, List.length_cons, List.length_nil]
      omega
    rw [hlength, ← hdefinition, ← List.append_assoc]
    exact List.take_left
  rw [extractFunctionDefinitionByName, if_neg hne, String.toList_ofList, hsearch]
  dsimp only
  rw [hsig]
  dsimp only
  rw [hdrop, hend]
  dsimp only
  rw [hmatched, htake]
  refine strip_blanks hblanks ?_ ?_
  · rw [DefinedFunction.definition, hopening]
    exact head.text_head _
  · have hlast : d.definition.getLast? = some '\x7d' := by
      simp [DefinedFunction.definition, List.getLast?_append, List.getLast?_cons]
    rw [hlast]
    show chars.space '\x7d' = false
    rw [chars.space_ascii _ (by decide)]
    decide

/-- `fn g` -/
def plainHead : PlainHead .ascii where
  visibility := none
  safety := none
  linkage := none
  blanks := [' ']
  name := ['g']
  visibility_blanks _ h := by cases h
  safety_blanks _ h := by cases h
  linkage_blanks _ h := by cases h
  blanks_blanks := ⟨by decide, List.forall_mem_singleton.mpr rfl⟩
  name_ne_nil := by decide
  name_word := List.forall_mem_singleton.mpr rfl

/-- ` fn g(x: [u8; 2]) { "}" }` -/
def semicolonInBrackets : DefinedFunction where
  front := codes [' ']
  opening := codes ['f', 'n', ' ', 'g']
  signature := codes ['(', 'x', ':', ' ', '[', 'u', '8', ';', ' ', '2', ']', ')', ' ']
  body := [.code ' ', .str [.plain '\x7d'], .code ' ']
  after := []

/-- The theorem at a signature with a semicolon inside brackets. -/
theorem extractFunctionDefinitionByName_semicolonInBrackets :
    extractFunctionDefinitionByName .ascii (String.ofList (textOf semicolonInBrackets.tokens)) "g" =
      String.ofList semicolonInBrackets.definition := by
  refine extractFunctionDefinitionByName_definition .ascii "g" semicolonInBrackets (by decide +kernel)
    (by decide +kernel) ⟨⟨plainHead, rfl, rfl⟩, ⟨[], [' '], rfl, List.forall_mem_singleton.mpr rfl, rfl, ?_⟩, ?_, ?_⟩
  · intro before line hlines hne
    exact absurd (List.append_eq_nil_iff.mp hlines.symm).2 hne
  · refine ⟨_,
      .code (.code (.code (.code (.code (.code (.code (.code (.code (.code (.code (.code (.code .nil)))))))))))),
      ?_⟩
    simp [InBrackets, codeIn]
  · refine ⟨_, .code (.str (.code .nil)), ?_⟩
    simp [BracesClose, codeIn, RustToken.braces]

/-- An attribute, `fn f() {}` -/
def withAttribute : DefinedFunction where
  front := []
  opening := codes ['#', '[', 'i', 'n', 'l', 'i', 'n', 'e', ']', '\n', 'f', 'n', ' ', 'f']
  signature := codes ['(', ')', ' ']
  body := []
  after := []

/-- The attribute of the function is left behind. -/
theorem extractFunctionDefinitionByName_withAttribute : WellLexed .ascii withAttribute.tokens ∧
    extractFunctionDefinitionByName .ascii (String.ofList (textOf withAttribute.tokens)) "f" ≠
      String.ofList withAttribute.definition := by
  decide +kernel

end Assure
