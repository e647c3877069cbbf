import Assure.Pipeline.Blank
import Mathlib.Data.List.TakeWhile

/-!
# Signatures without bodies

The agent that writes the tests sees the translation without the bodies of its functions. `signaturesOnly`
looks for `fn` and a name in the blanked source, takes the first brace outside round and square brackets for
the beginning of the body, and replaces the text up to the brace that closes it.

A `RustSource` is a source as Rust divides it: heads of functions, each with a body or a semicolon, and what
stands between them. What is shown of it is everything but the bodies. `signaturesOnly_iff` says when this is
what `signaturesOnly` gives: when no signature has a brace outside round and square brackets, as the braces of
a constant argument are.

The equivalence is for sources that Rust and the scanner divide in the same way: `RustSource` has no
`fn` with a name outside of heads, and no quotation mark behind a lifetime. Of other texts nothing
is said.
-/

namespace Assure

open Assure.Library
open Assure.Library.RustToken (textOf textOf_cons textOf_append BlankSafe)

/-! ## Cutting bodies -/

/-- `{ /* body not shown */ }` -/
def bodyMarker : List Char :=
  ['\x7b', ' ', '/', '*', ' ', 'b', 'o', 'd', 'y', ' ', 'n', 'o',
    't', ' ', 's', 'h', 'o', 'w', 'n', ' ', '*', '/', ' ', '\x7d']

/-- `\bfn\s+\w+`: what follows a match. -/
def headEnd? (chars : CharClass) (previous : Option Char) : List Char → Option (List Char)
  | c :: d :: code =>
    let named := code.dropWhile chars.space
    if previous.any chars.word = false ∧ c = 'f' ∧ d = 'n' ∧ code.takeWhile chars.space ≠ [] ∧
        named.takeWhile chars.word ≠ [] then some (named.dropWhile chars.word)
    else none
  | _ => none

/-- `(c in "([") - (c in ")]")` -/
def bracketOf (c : Char) : Int := (if c = '(' ∨ c = '[' then 1 else 0) - (if c = ')' ∨ c = ']' then 1 else 0)

/-- `(c == "\x7b") - (c == "\x7d")` -/
def braceOf (c : Char) : Int := (if c = '\x7b' then 1 else 0) - (if c = '\x7d' then 1 else 0)

/-- From the first brace on that stands outside the brackets; nothing if a semicolon comes first. -/
def signatureEnd? (brackets : Int) : List Char → Option (List Char)
  | [] => none
  | c :: code =>
    if brackets = 0 ∧ (c = '\x7b' ∨ c = ';') then if c = ';' then none else some (c :: code)
    else signatureEnd? (brackets + bracketOf c) code

/-- What follows the brace that closes the first one. -/
def bodyEnd? (depth : Int) : List Char → Option (List Char)
  | [] => none
  | c :: code => if depth + braceOf c = 0 then some code else bodyEnd? (depth + braceOf c) code

/-- **The loop of `signaturesOnly`**, on the characters of the source beside those of the blanked one. So many
characters belong to bodies already cut, and so many to the match before; nothing is a `ValueError`. -/
def cutBodies (chars : CharClass) (previous : Option Char) (cut matched : Nat) :
    List (Char × Char) → Option (List Char)
  | [] => some []
  | p :: text =>
    let code := (p :: text).map Prod.snd
    match if matched = 0 then headEnd? chars previous code else none with
    | none =>
      (cutBodies chars (some p.2) (cut - 1) (matched - 1) text).map ((if cut = 0 then [p.1] else []) ++ ·)
    | some after =>
      let matched := text.length - after.length
      if cut ≠ 0 then cutBodies chars (some p.2) (cut - 1) matched text
      else match signatureEnd? 0 after with
        | none => (cutBodies chars (some p.2) 0 matched text).map (p.1 :: ·)
        | some body => (bodyEnd? 0 body).bind fun rest =>
          let signature := (p :: text).take (code.length - body.length)
          (cutBodies chars (some p.2) (text.length - rest.length) matched text).map
            (signature.map Prod.fst ++ bodyMarker ++ ·)

/-- **`signaturesOnly`** -/
def signaturesOnly (chars : CharClass) (source : List Char) : Option (List Char) :=
  cutBodies chars none 0 0 (source.zip (blank source))

/-! ## Sources as Rust divides them -/

/-- A pair of delimiters. -/
def Delimiters (opening closing : Char) : Prop :=
  (opening, closing) ∈ [('(', ')'), ('[', ']'), ('\x7b', '\x7d')]

/-- **Delimiters are nested.** -/
inductive Nested : List Char → Prop
  | nil : Nested []
  | plain {c : Char} {code : List Char} :
    c ∉ ['(', ')', '[', ']', '\x7b', '\x7d'] → Nested code → Nested (c :: code)
  | group {opening closing : Char} {inner code : List Char} :
    Delimiters opening closing → Nested inner → Nested code → Nested (opening :: (inner ++ closing :: code))

/-- **What follows the name of a function, up to its body**: its angle brackets are nested too, and braces stand
around an argument of theirs that is not empty. -/
inductive Heading (space : Char → Bool) : Bool → List Char → Prop
  | nil {inAngles : Bool} : Heading space inAngles []
  | plain {inAngles : Bool} {c : Char} {code : List Char} :
    c ∉ ['(', ')', '[', ']', '\x7b', '\x7d', '<', '>', ';'] → Heading space inAngles code →
      Heading space inAngles (c :: code)
  | arrow {inAngles : Bool} {code : List Char} :
    Heading space inAngles code → Heading space inAngles ('-' :: '>' :: code)
  | angles {inAngles : Bool} {inner code : List Char} :
    Heading space true inner → Heading space inAngles code → Heading space inAngles ('<' :: (inner ++ '>' :: code))
  | group {inAngles : Bool} {opening closing : Char} {inner code : List Char} :
    Delimiters opening closing → opening ≠ '\x7b' → Nested inner → Heading space inAngles code →
      Heading space inAngles (opening :: (inner ++ closing :: code))
  | block {inner code : List Char} :
    Nested inner → inner.dropWhile space ≠ [] → Heading space true code →
      Heading space true ('\x7b' :: (inner ++ '\x7d' :: code))

/-- **No function begins** in a code, with what is before and after it. -/
def NoHead (chars : CharClass) (previous : Option Char) (code following : List Char) : Prop :=
  ∀ front back, code = front ++ back → back ≠ [] →
    headEnd? chars (Pattern.lastOr previous front) (back ++ following) = none

/-- **The head of a function**: what stands before it, and its signature after the keyword `fn`. In the code of
the signature there are blanks, the name and the rest of the heading. -/
structure RustHead (chars : CharClass) where
  before : List RustToken
  signature : List RustToken
  spaces : List Char
  name : List Char
  heading : List Char
  safe : BlankSafe chars (before ++ .code 'f' :: (.code 'n' :: signature ++ [.code '\x7b']))
  code : blankedOf signature = spaces ++ (name ++ heading)
  apart : (blankedOf before).getLast?.any chars.word = false
  spaces_ne_nil : spaces ≠ []
  spaces_space : ∀ c ∈ spaces, chars.space c = true
  name_ne_nil : name ≠ []
  name_word : ∀ c ∈ name, chars.word c = true
  heading_apart : heading.head?.any chars.word = false
  heading_nested : Heading chars.space false heading
  before_noHead : NoHead chars none (blankedOf before) ('f' :: 'n' :: blankedOf signature ++ ['\x7b'])
  heading_noHead : NoHead chars name.getLast? heading ['\x7b']

/-- **A body**, without its braces. -/
structure RustBody (chars : CharClass) where
  tokens : List RustToken
  safe : BlankSafe chars (tokens ++ [.code '\x7d'])
  nested : Nested (blankedOf tokens)

/-- **A source**: heads of functions, each with a body or a semicolon, and the rest. -/
structure RustSource (chars : CharClass) where
  items : List (RustHead chars × Option (RustBody chars))
  tail : List RustToken
  tail_safe : BlankSafe chars tail
  tail_noHead : NoHead chars none (blankedOf tail) []

variable {chars : CharClass}

/-- The tokens up to a body. -/
def RustHead.tokens (head : RustHead chars) : List RustToken :=
  head.before ++ .code 'f' :: .code 'n' :: head.signature

/-- The tokens of a function or a declaration. -/
def itemTokens : RustHead chars × Option (RustBody chars) → List RustToken
  | (head, none) => head.tokens ++ [.code ';']
  | (head, some body) => head.tokens ++ .code '\x7b' :: (body.tokens ++ [.code '\x7d'])

/-- What is shown of a function or a declaration. -/
def itemShown : RustHead chars × Bool → List Char
  | (head, false) => textOf head.tokens ++ [';']
  | (head, true) => textOf head.tokens ++ bodyMarker

namespace RustSource

/-- **The text of a source.** -/
def text (source : RustSource chars) : List Char := textOf (source.items.flatMap itemTokens ++ source.tail)

/-- **What is outside the bodies**: the heads, which of them have a body, and the rest. -/
def outline (source : RustSource chars) : List (RustHead chars × Bool) × List RustToken :=
  (source.items.map fun item => (item.1, item.2.isSome), source.tail)

/-- **What is to be shown**: everything outside the bodies, and the marker for each of them. -/
def shown (source : RustSource chars) : List Char :=
  source.outline.1.flatMap itemShown ++ textOf source.outline.2

end RustSource

/-- **Every brace of a code stands in round or square brackets**, so many being open before it. -/
def BracesInside (brackets : Int) : List Char → Prop
  | [] => True
  | c :: code => (c = '\x7b' → brackets ≠ 0) ∧ BracesInside (brackets + bracketOf c) code

/-- No signature has a brace outside round and square brackets. -/
def RustSource.BracesInBrackets (source : RustSource chars) : Prop :=
  ∀ item ∈ source.items, BracesInside 0 (blankedOf item.1.signature)

/-! ## Heads -/

/-- Taking stops at a character that does not belong, whatever follows. -/
theorem takeWhile_append_cons {p : Char → Bool} {c : Char} (hc : p c = false) (rest : List Char) :
    ∀ text : List Char, (text ++ c :: rest).takeWhile p = text.takeWhile p
  | [] => by rw [List.nil_append, List.takeWhile_cons_of_neg (by simp [hc]), List.takeWhile_nil]
  | d :: text => by
    rw [List.cons_append, List.takeWhile_cons, List.takeWhile_cons, takeWhile_append_cons hc rest text]

/-- So does dropping. -/
theorem dropWhile_append_cons {p : Char → Bool} {c : Char} (hc : p c = false) (rest : List Char) :
    ∀ text : List Char, (text ++ c :: rest).dropWhile p = text.dropWhile p ++ c :: rest
  | [] => by rw [List.nil_append, List.dropWhile_cons_of_neg (by simp [hc]), List.dropWhile_nil, List.nil_append]
  | d :: text => by
    rw [List.cons_append, List.dropWhile_cons, List.dropWhile_cons, dropWhile_append_cons hc rest text]
    split <;> rfl

/-- A head begins with the first letter of its keyword. -/
theorem headEnd?_of_ne {previous : Option Char} {c : Char} {code : List Char} (h : c ≠ 'f') :
    headEnd? chars previous (c :: code) = none := by
  cases code with
  | nil => rfl
  | cons d code => rw [headEnd?, if_neg fun hc => h hc.2.1]

/-- A mark ends a head, whatever comes after it. -/
theorem headEnd?_mark {previous : Option Char} {c c' : Char} (hc : IsMark c) (hc' : IsMark c') {text : List Char}
    (hne : text ≠ []) (more : List Char) (h : headEnd? chars previous (text ++ [c']) = none) :
    headEnd? chars previous (text ++ c :: more) = none := by
  obtain ⟨d, text, rfl⟩ := List.exists_cons_of_ne_nil hne
  cases text with
  | nil =>
    have hn : c ≠ 'n' := by
      rintro rfl
      exact absurd hc (by simp [IsMark])
    rw [List.singleton_append, headEnd?, if_neg fun hd => hn hd.2.2.1]
  | cons e text =>
    rw [List.cons_append, List.cons_append] at h ⊢
    simp only [headEnd?, takeWhile_append_cons hc.space, dropWhile_append_cons hc.space,
      takeWhile_append_cons hc.word, takeWhile_append_cons hc'.space, dropWhile_append_cons hc'.space,
      takeWhile_append_cons hc'.word] at h ⊢
    split at h
    · cases h
    · rename_i hcond
      rw [if_neg hcond]

/-- Where no head begins before one mark, none begins before another, since no mark belongs to a
head. -/
theorem NoHead.mark {previous : Option Char} {code following : List Char} {c c' : Char} (hc : IsMark c)
    (hc' : IsMark c') (more : List Char) (h : NoHead chars previous code (following ++ [c'])) :
    NoHead chars previous code (following ++ c :: more) := by
  rintro front back hcode hback
  rw [← List.append_assoc]
  refine headEnd?_mark hc hc' (by simp [hback]) more ?_
  rw [List.append_assoc]
  exact h front back hcode hback

/-- A character that is no word character before a place changes nothing. -/
theorem NoHead.previous {code following : List Char} {c : Char} (hc : chars.word c = false)
    (h : NoHead chars none code following) : NoHead chars (some c) code following := by
  rintro front back hcode hback
  have hfront := h front back hcode hback
  cases front using List.reverseRecOn with
  | nil =>
    rw [Pattern.lastOr, List.getLast?_nil, Option.none_or] at hfront ⊢
    cases hrest : back ++ following with
    | nil => rfl
    | cons d rest =>
      rw [hrest] at hfront
      cases rest with
      | nil => rfl
      | cons e rest =>
        rw [headEnd?] at hfront ⊢
        simp only [Option.any_some, hc, Option.any_none] at hfront ⊢
        exact hfront
  | append_singleton front d => simpa [Pattern.lastOr] using hfront

/-- **A head is found.** -/
theorem headEnd?_fn {previous : Option Char} (hprevious : previous.any chars.word = false)
    {spaces name rest : List Char} (hspaces : spaces ≠ []) (hspace : ∀ c ∈ spaces, chars.space c = true)
    (hname : name ≠ []) (hword : ∀ c ∈ name, chars.word c = true) (hrest : rest.head?.any chars.word = false) :
    headEnd? chars previous ('f' :: 'n' :: (spaces ++ (name ++ rest))) = some rest := by
  have hnospace : (name ++ rest).takeWhile chars.space = [] ∧ (name ++ rest).dropWhile chars.space = name ++ rest := by
    obtain ⟨c, name, rfl⟩ := List.exists_cons_of_ne_nil hname
    have hc : ¬ chars.space c = true := by simp [chars.disjoint c (hword c List.mem_cons_self)]
    exact ⟨List.takeWhile_cons_of_neg hc, List.dropWhile_cons_of_neg hc⟩
  have hnoword : rest.takeWhile chars.word = [] ∧ rest.dropWhile chars.word = rest := by
    cases rest with
    | nil => exact ⟨rfl, rfl⟩
    | cons c rest =>
      have hc : ¬ chars.word c = true := by simpa using hrest
      exact ⟨List.takeWhile_cons_of_neg hc, List.dropWhile_cons_of_neg hc⟩
  simp only [headEnd?]
  rw [List.takeWhile_append_of_pos hspace, List.dropWhile_append_of_pos hspace, hnospace.1, hnospace.2,
    List.takeWhile_append_of_pos hword, List.dropWhile_append_of_pos hword, hnoword.1, hnoword.2]
  rw [List.append_nil, List.append_nil, if_pos ⟨hprevious, trivial, trivial, hspaces, hname⟩]

/-- A head has no braces. -/
theorem headEnd?_split {previous : Option Char} {code after : List Char}
    (h : headEnd? chars previous code = some after) : ∃ head, code = head ++ after ∧ '\x7d' ∉ head := by
  match code with
  | [] => cases h
  | [_] => cases h
  | c :: d :: code =>
    rw [headEnd?] at h
    split at h
    · rename_i hhead
      obtain ⟨-, rfl, rfl, -, -⟩ := hhead
      obtain rfl := Option.some.inj h
      refine ⟨'f' :: 'n' :: (code.takeWhile chars.space ++ (code.dropWhile chars.space).takeWhile chars.word), ?_, ?_⟩
      · simp only [List.cons_append, List.append_assoc, List.takeWhile_append_dropWhile]
      · have hmark : IsMark '\x7d' := by simp [IsMark]
        intro hmem
        simp only [List.mem_cons, List.mem_append] at hmem
        rcases hmem with h | h | h | h
        · exact absurd h (by decide)
        · exact absurd h (by decide)
        · exact absurd (List.mem_takeWhile_imp h) (by simp [hmark.space])
        · exact absurd (List.mem_takeWhile_imp h) (by simp [hmark.word])
    · cases h

/-! ## Stretches of the loop -/

/-- What is shown in front of a result can be put there at once. -/
theorem map_shown (front front' : List Char) (result : Option (List Char)) :
    (result.map (front' ++ ·)).map (front ++ ·) = result.map (front ++ front' ++ ·) := by
  cases result <;> simp

/-- Within a match nothing is looked for. -/
theorem cutBodies_matched (rest : List (Char × Char)) : ∀ (text : List (Char × Char)) (previous : Option Char),
    cutBodies chars previous 0 text.length (text ++ rest) =
      (cutBodies chars (Pattern.lastOr previous (text.map Prod.snd)) 0 0 rest).map (text.map Prod.fst ++ ·)
  | [], previous => by simp
  | p :: text, previous => by
    rw [List.length_cons, List.cons_append, cutBodies, if_neg (Nat.succ_ne_zero _)]
    dsimp only
    rw [if_pos rfl, Nat.zero_sub, Nat.add_sub_cancel, cutBodies_matched rest text, map_shown, List.map_cons,
      List.map_cons, Pattern.lastOr_cons]
    rfl

/-- **Where no function begins the text is kept.** -/
theorem cutBodies_noHead {rest : List (Char × Char)} : ∀ {text : List (Char × Char)} {previous : Option Char},
    NoHead chars previous (text.map Prod.snd) (rest.map Prod.snd) →
      cutBodies chars previous 0 0 (text ++ rest) =
        (cutBodies chars (Pattern.lastOr previous (text.map Prod.snd)) 0 0 rest).map (text.map Prod.fst ++ ·)
  | [], previous, _ => by simp
  | p :: text, previous, h => by
    have hnone : headEnd? chars previous ((p :: (text ++ rest)).map Prod.snd) = none := by
      have := h [] ((p :: text).map Prod.snd) rfl (by simp)
      rwa [Pattern.lastOr_nil, ← List.map_append] at this
    have htext : NoHead chars (some p.2) (text.map Prod.snd) (rest.map Prod.snd) := by
      rintro front back hcode hback
      rw [← Pattern.lastOr_cons previous]
      exact h (p.2 :: front) back (by rw [List.map_cons, hcode, List.cons_append]) hback
    rw [List.cons_append, cutBodies, if_pos rfl]
    dsimp only
    rw [hnone]
    dsimp only
    rw [if_pos rfl, Nat.zero_sub, cutBodies_noHead htext, map_shown, List.map_cons, List.map_cons,
      Pattern.lastOr_cons]
    rfl

/-- **In a body already cut nothing is kept**, and no match goes on behind its brace. -/
theorem cutBodies_cut {rest : List (Char × Char)} {p : Char × Char} (hp : p.2 = '\x7d') :
    ∀ {text : List (Char × Char)} {previous : Option Char} {matched : Nat}, matched ≤ text.length →
      cutBodies chars previous (text.length + 1) matched (text ++ p :: rest) =
        cutBodies chars (some '\x7d') 0 0 rest
  | [], previous, matched, h => by
    obtain rfl := Nat.le_zero.mp h
    have hnone : headEnd? chars previous ((p :: rest).map Prod.snd) = none := by
      rw [List.map_cons, hp]
      exact headEnd?_of_ne (by decide)
    rw [List.nil_append, cutBodies, if_pos rfl]
    dsimp only
    rw [hnone]
    dsimp only
    rw [if_neg (Nat.succ_ne_zero _), hp]
    simp
  | q :: text, previous, matched, h => by
    rw [List.cons_append, cutBodies, List.length_cons]
    dsimp only
    split
    · have hle : matched - 1 ≤ text.length := by
        rw [List.length_cons] at h
        omega
      rw [if_neg (Nat.succ_ne_zero _), Nat.add_sub_cancel, cutBodies_cut hp hle]
      simp
    · rename_i after hafter
      have hle : (text ++ p :: rest).length - after.length ≤ text.length := by
        split at hafter
        · obtain ⟨head, hsplit, hbrace⟩ := headEnd?_split hafter
          have hmap : (q :: (text ++ p :: rest)).map Prod.snd =
              ((q :: text).map Prod.snd ++ [p.2]) ++ rest.map Prod.snd := by simp
          -- a match that ends behind the brace has it
          have hlong : ¬ after.length ≤ rest.length := by
            intro hshort
            have hsub : (q :: text).map Prod.snd ++ [p.2] <+: head := by
              rw [hmap] at hsplit
              refine List.prefix_of_prefix_length_le (List.prefix_append _ (rest.map Prod.snd))
                (hsplit ▸ List.prefix_append head after) ?_
              have hlength := congrArg List.length hsplit
              simp only [List.length_append, List.length_map, List.length_cons, List.length_nil] at hlength ⊢
              omega
            exact hbrace (hsub.subset (by simp [hp]))
          rw [List.length_append, List.length_cons]
          omega
        · cases hafter
      rw [if_pos (Nat.succ_ne_zero _), Nat.add_sub_cancel]
      exact cutBodies_cut hp hle

/-! ## Delimiters -/

/-- Inside brackets a signature goes on, whatever the character. -/
theorem signatureEnd?_pos {brackets : Int} (h : brackets ≠ 0) (c : Char) (code : List Char) :
    signatureEnd? brackets (c :: code) = signatureEnd? (brackets + bracketOf c) code := by
  rw [signatureEnd?, if_neg fun hc => h hc.1]

/-- Inside braces a body goes on. -/
theorem bodyEnd?_pos {depth : Int} {c : Char} (h : depth + braceOf c ≠ 0) (code : List Char) :
    bodyEnd? depth (c :: code) = bodyEnd? (depth + braceOf c) code := by
  rw [bodyEnd?, if_neg h]

/-- A character that is no bracket changes no depth of brackets. -/
theorem bracketOf_plain {c : Char} (h : c ∉ ['(', ')', '[', ']', '\x7b', '\x7d']) : bracketOf c = 0 := by
  simp only [List.mem_cons, List.not_mem_nil, not_or, or_false] at h
  simp [bracketOf, h]

/-- A character that is no brace changes no depth of braces. -/
theorem braceOf_plain {c : Char} (h : c ∉ ['(', ')', '[', ']', '\x7b', '\x7d']) : braceOf c = 0 := by
  simp only [List.mem_cons, List.not_mem_nil, not_or, or_false] at h
  simp [braceOf, h]

/-- A pair of delimiters opens as much as it closes. -/
theorem Delimiters.count {opening closing : Char} (h : Delimiters opening closing) :
    0 ≤ bracketOf opening ∧ bracketOf opening + bracketOf closing = 0 ∧
      0 ≤ braceOf opening ∧ braceOf opening + braceOf closing = 0 := by
  simp only [Delimiters, List.mem_cons, Prod.mk.injEq, List.not_mem_nil, or_false] at h
  rcases h with ⟨rfl, rfl⟩ | ⟨rfl, rfl⟩ | ⟨rfl, rfl⟩ <;> decide

/-- A pair of brackets other than braces opens a level and closes it. -/
theorem Delimiters.bracket {opening closing : Char} (h : Delimiters opening closing) (hbrace : opening ≠ '\x7b') :
    bracketOf opening = 1 ∧ bracketOf closing = -1 ∧ opening ≠ ';' := by
  simp only [Delimiters, List.mem_cons, Prod.mk.injEq, List.not_mem_nil, or_false] at h
  rcases h with ⟨rfl, rfl⟩ | ⟨rfl, rfl⟩ | ⟨rfl, rfl⟩
  · decide
  · decide
  · exact absurd rfl hbrace

/-- Within brackets the signature goes on behind nested delimiters. -/
theorem Nested.signatureEnd? {code : List Char} (h : Nested code) : ∀ {brackets : Int}, 0 < brackets →
    ∀ rest, Assure.signatureEnd? brackets (code ++ rest) = Assure.signatureEnd? brackets rest := by
  induction h with
  | nil => exact fun _ _ => rfl
  | plain hc _ ih =>
    intro brackets hpos rest
    rw [List.cons_append, signatureEnd?_pos (by omega), bracketOf_plain hc, Int.add_zero, ih hpos]
  | @group opening closing inner code hpair _ _ ihInner ih =>
    intro brackets hpos rest
    obtain ⟨hopening, hsum, -⟩ := hpair.count
    rw [List.cons_append, signatureEnd?_pos (by omega), List.append_assoc, ihInner (by omega), List.cons_append,
      signatureEnd?_pos (by omega), Int.add_assoc, hsum, Int.add_zero, ih hpos]

/-- Text with matching brackets has its braces inside them where what follows has. -/
theorem Nested.bracesInside {code : List Char} (h : Nested code) : ∀ {brackets : Int}, 0 < brackets →
    ∀ rest, BracesInside brackets (code ++ rest) ↔ BracesInside brackets rest := by
  induction h with
  | nil => exact fun _ _ => Iff.rfl
  | plain hc _ ih =>
    intro brackets hpos rest
    rw [List.cons_append, BracesInside, bracketOf_plain hc, Int.add_zero, ih hpos]
    exact and_iff_right fun _ => by omega
  | @group opening closing inner code hpair _ _ ihInner ih =>
    intro brackets hpos rest
    obtain ⟨hopening, hsum, -⟩ := hpair.count
    rw [List.cons_append, BracesInside, List.append_assoc, ihInner (by omega), List.cons_append, BracesInside,
      Int.add_assoc, hsum, Int.add_zero, ih hpos]
    rw [and_iff_right fun _ => by omega, and_iff_right fun _ => by omega]

/-- A body does not end within nested delimiters. -/
theorem Nested.bodyEnd? {code : List Char} (h : Nested code) : ∀ {depth : Int}, 0 < depth →
    ∀ rest, Assure.bodyEnd? depth (code ++ rest) = Assure.bodyEnd? depth rest := by
  induction h with
  | nil => exact fun _ _ => rfl
  | plain hc _ ih =>
    intro depth hpos rest
    have hzero := braceOf_plain hc
    rw [List.cons_append, bodyEnd?_pos (by omega), hzero, Int.add_zero, ih hpos]
  | @group opening closing inner code hpair _ _ ihInner ih =>
    intro depth hpos rest
    obtain ⟨-, -, hopening, hsum⟩ := hpair.count
    rw [List.cons_append, bodyEnd?_pos (by omega), List.append_assoc, ihInner (by omega), List.cons_append,
      bodyEnd?_pos (by omega), Int.add_assoc, hsum, Int.add_zero, ih hpos]

/-- Nested delimiters do not begin with one that closes. -/
theorem Nested.head_ne (chars : CharClass) {code : List Char} (h : Nested code) :
    (code.dropWhile chars.space).head? ≠ some '\x7d' := by
  induction h with
  | nil => simp
  | @plain c code hc _ ih =>
    rw [List.dropWhile_cons]
    split
    · exact ih
    · rintro heq
      exact hc (by rw [Option.some.inj heq]; decide)
  | @group opening closing inner code hpair =>
    have hspace : chars.space opening = false := by
      simp only [Delimiters, List.mem_cons, Prod.mk.injEq, List.not_mem_nil, or_false] at hpair
      rcases hpair with ⟨rfl, -⟩ | ⟨rfl, -⟩ | ⟨rfl, -⟩ <;> exact chars.space_ascii _ (by decide)
    rw [List.dropWhile_cons_of_neg (by simp [hspace])]
    rintro heq
    rw [Option.some.inj heq] at hpair
    exact absurd hpair (by simp [Delimiters])

/-- **Up to the end of a heading** the signature goes on, as every brace of it stands in brackets. -/
def GoesOn (code : List Char) : Prop :=
  ∀ rest, signatureEnd? 0 (code ++ rest) = signatureEnd? 0 rest ∧ (BracesInside 0 (code ++ rest) ↔ BracesInside 0 rest)

/-- **The signature ends at a brace within the heading**, around an argument that is not empty. -/
def EndsWithin (space : Char → Bool) (code : List Char) : Prop :=
  ∃ front inner back, code = front ++ '\x7b' :: (inner ++ '\x7d' :: back) ∧ Nested inner ∧
    inner.dropWhile space ≠ [] ∧ ∀ rest, ¬ BracesInside 0 (code ++ rest) ∧
      signatureEnd? 0 (code ++ rest) = some ('\x7b' :: (inner ++ '\x7d' :: back) ++ rest)

/-- Two texts in which a signature goes on are one. -/
theorem GoesOn.append {code code' : List Char} (h : GoesOn code) (h' : GoesOn code') : GoesOn (code ++ code') := by
  intro rest
  rw [List.append_assoc, (h _).1, (h _).2]
  exact h' rest

/-- A character that is no bracket and ends no signature. -/
theorem goesOn_singleton {c : Char} (h : c ∉ ['(', ')', '[', ']', '\x7b', '\x7d']) (hend : c ≠ ';') :
    GoesOn [c] := by
  intro rest
  have hbrace : c ≠ '\x7b' := by
    rintro rfl
    exact h (by decide)
  rw [List.singleton_append, signatureEnd?, if_neg fun hc => hc.2.elim hbrace hend, BracesInside, bracketOf_plain h,
    Int.add_zero]
  exact ⟨rfl, and_iff_right fun hc => absurd hc hbrace⟩

/-- Round or square brackets. -/
theorem goesOn_group {opening closing : Char} {inner : List Char} (hpair : Delimiters opening closing)
    (hbrace : opening ≠ '\x7b') (h : Nested inner) : GoesOn (opening :: (inner ++ [closing])) := by
  intro rest
  obtain ⟨hopening, hclosing, hend⟩ := hpair.bracket hbrace
  rw [List.cons_append, List.append_assoc, List.singleton_append, Assure.signatureEnd?,
    if_neg fun hc => hc.2.elim hbrace hend, BracesInside, hopening, h.signatureEnd? (by omega),
    h.bracesInside (by omega), signatureEnd?_pos (by omega), BracesInside, hclosing, and_iff_right fun hc =>
      absurd hc hbrace,
    and_iff_right fun _ => by omega]
  exact ⟨rfl, Iff.rfl⟩

/-- A signature that goes on through a text ends in the next one. -/
theorem EndsWithin.append_left {space : Char → Bool} {code code' : List Char} (h : GoesOn code)
    (h' : EndsWithin space code') : EndsWithin space (code ++ code') := by
  obtain ⟨front, inner, back, rfl, hinner, hne, hends⟩ := h'
  refine ⟨code ++ front, inner, back, by rw [List.append_assoc], hinner, hne, fun rest => ?_⟩
  rw [List.append_assoc, (h _).1, (h _).2]
  exact hends rest

/-- Where a signature ends does not depend on what follows. -/
theorem EndsWithin.append_right {space : Char → Bool} {code : List Char} (h : EndsWithin space code)
    (code' : List Char) : EndsWithin space (code ++ code') := by
  obtain ⟨front, inner, back, rfl, hinner, hne, hends⟩ := h
  refine ⟨front, inner, back ++ code', by simp, hinner, hne, fun rest => ?_⟩
  have := hends (code' ++ rest)
  simpa using this

/-- **A heading is passed, or it has a brace outside the brackets.** -/
theorem Heading.goesOn_or {space : Char → Bool} {inAngles : Bool} {code : List Char}
    (h : Heading space inAngles code) : GoesOn code ∨ EndsWithin space code := by
  have step : ∀ {code code' : List Char}, GoesOn code → GoesOn code' ∨ EndsWithin space code' →
      GoesOn (code ++ code') ∨ EndsWithin space (code ++ code') := fun h h' =>
    h'.imp h.append (EndsWithin.append_left h)
  have hplain : ∀ {c : Char}, c ∉ ['(', ')', '[', ']', '\x7b', '\x7d'] → c ≠ ';' → GoesOn [c] := goesOn_singleton
  induction h with
  | nil => exact .inl fun rest => ⟨rfl, Iff.rfl⟩
  | @plain _ c code hc _ ih =>
    simp only [List.mem_cons, List.not_mem_nil, not_or, or_false] at hc
    exact step (hplain (by simp [hc]) hc.2.2.2.2.2.2.2.2) ih
  | arrow _ ih =>
    exact step (hplain (by decide) (by decide)) (step (hplain (by decide) (by decide)) ih)
  | @angles _ inner code _ _ ihInner ih =>
    have hclosed : GoesOn ('>' :: code) ∨ EndsWithin space ('>' :: code) :=
      step (hplain (by decide) (by decide)) ih
    refine step (hplain (by decide) (by decide)) ?_
    rcases ihInner with hinner | hinner
    · exact step hinner hclosed
    · exact .inr (hinner.append_right _)
  | @group _ opening closing inner code hpair hbrace hinner _ ih =>
    have := step (goesOn_group hpair hbrace hinner) ih
    rwa [List.cons_append, List.append_assoc, List.singleton_append] at this
  | @block inner code hinner hne _ ih =>
    refine .inr ⟨[], inner, code, rfl, hinner, hne, fun rest => ⟨fun hinside => hinside.1 rfl rfl, ?_⟩⟩
    rw [List.cons_append, Assure.signatureEnd?, if_pos ⟨rfl, .inl rfl⟩, if_neg (by decide)]

/-! ## Heads in the loop -/

namespace RustHead

variable (head : RustHead chars)

/-- A signature and what follows it, after the first letter of the keyword. -/
def rest (more : List (Char × Char)) : List (Char × Char) := ('n', 'n') :: (marked head.signature ++ more)

/-- What follows the first letter of a head, blanked. -/
theorem rest_snd (more : List (Char × Char)) : (head.rest more).map Prod.snd =
    'n' :: (head.spaces ++ (head.name ++ (head.heading ++ more.map Prod.snd))) := by
  simp [rest, head.code]

/-- The length of a signature, part by part. -/
theorem length_signature :
    (marked head.signature).length = head.spaces.length + (head.name.length + head.heading.length) := by
  rw [← List.length_map (f := Prod.snd), marked_snd, head.code, List.length_append, List.length_append]

/-- The character before the keyword is no word character. -/
theorem previous_before {previous : Option Char} (hprevious : previous.any chars.word = false) :
    (Pattern.lastOr previous (blankedOf head.before)).any chars.word = false := by
  rw [Pattern.lastOr]
  cases hlast : (blankedOf head.before).getLast? with
  | none => exact hprevious
  | some c =>
    have := head.apart
    rwa [hlast] at this

/-- **The loop comes to the keyword and finds the head.** -/
theorem cutBodies_before {previous : Option Char} (hprevious : previous.any chars.word = false) {m : Char}
    (hm : IsMark m) (more : List (Char × Char)) :
    cutBodies chars previous 0 0 (marked head.before ++ ('f', 'f') :: head.rest ((m, m) :: more)) =
      (cutBodies chars (Pattern.lastOr previous (blankedOf head.before)) 0 0
        (('f', 'f') :: head.rest ((m, m) :: more))).map (textOf head.before ++ ·) := by
  have hbefore : NoHead chars previous (blankedOf head.before)
      (('f' :: 'n' :: blankedOf head.signature) ++ m :: more.map Prod.snd) := by
    have hnone := head.before_noHead.mark hm (by simp [IsMark]) (more.map Prod.snd)
    cases previous with
    | none => exact hnone
    | some c => exact hnone.previous hprevious
  have hquiet : NoHead chars previous ((marked head.before).map Prod.snd)
      ((('f', 'f') :: head.rest ((m, m) :: more)).map Prod.snd) := by simpa [rest] using hbefore
  rw [cutBodies_noHead hquiet, marked_snd, marked_fst]

/-- A head is recognised where it begins, if no word goes on before it. -/
theorem headEnd?_rest {previous : Option Char} (hprevious : previous.any chars.word = false) {m : Char}
    (hm : IsMark m) (more : List (Char × Char)) :
    headEnd? chars previous ((('f', 'f') :: head.rest ((m, m) :: more)).map Prod.snd) =
      some (head.heading ++ m :: more.map Prod.snd) := by
  rw [List.map_cons, rest_snd]
  refine headEnd?_fn hprevious head.spaces_ne_nil head.spaces_space head.name_ne_nil head.name_word ?_
  cases hheading : head.heading with
  | nil => simpa using hm.word
  | cons c heading =>
    have := head.heading_apart
    rwa [hheading] at this

/-- What is left of the match, after the first letter of the keyword. -/
theorem length_rest (more : List (Char × Char)) :
    (head.rest more).length = 1 + head.spaces.length + head.name.length + (head.heading.length + more.length) := by
  rw [rest, List.length_cons, List.length_append, length_signature]
  omega

/-- **The rest of a heading is kept**, once the loop takes it for a declaration. -/
theorem cutBodies_rest {m : Char} (hm : IsMark m) (more : List (Char × Char)) :
    cutBodies chars (some 'f') 0 (1 + head.spaces.length + head.name.length) (head.rest ((m, m) :: more)) =
      (cutBodies chars (some m) 0 0 more).map ('n' :: textOf head.signature ++ [m] ++ ·) := by
  let matched := (marked head.signature).take (head.spaces.length + head.name.length)
  let heading := (marked head.signature).drop (head.spaces.length + head.name.length)
  have hsplit : marked head.signature = matched ++ heading := (List.take_append_drop _ _).symm
  have hcode : (matched ++ heading).map Prod.snd = (head.spaces ++ head.name) ++ head.heading := by
    rw [← hsplit, marked_snd, head.code, List.append_assoc]
  have hlength : matched.length = head.spaces.length + head.name.length := by
    rw [List.length_take, length_signature]
    omega
  rw [List.map_append] at hcode
  obtain ⟨hmatched, hheading⟩ := List.append_inj hcode (by rw [List.length_map, hlength, List.length_append])
  have hrest : head.rest ((m, m) :: more) =
      (('n', 'n') :: matched) ++ ((heading ++ [(m, m)]) ++ more) := by
    simp [rest, hsplit]
  have hlast : Pattern.lastOr (some 'f') ((('n', 'n') :: matched).map Prod.snd) = head.name.getLast? := by
    rw [List.map_cons, hmatched, Pattern.lastOr, ← List.cons_append, List.getLast?_append]
    rw [List.getLast?_eq_some_getLast head.name_ne_nil]
    rfl
  have hquiet : NoHead chars head.name.getLast? ((heading ++ [(m, m)]).map Prod.snd) (more.map Prod.snd) := by
    have hnone : NoHead chars head.name.getLast? head.heading ([] ++ m :: more.map Prod.snd) :=
      NoHead.mark hm (show IsMark '\x7b' by simp [IsMark]) _ head.heading_noHead
    rw [List.map_append, hheading]
    rintro front back hfront hback
    rcases List.append_eq_append_iff.mp hfront with ⟨middle, rfl, hmiddle⟩ | ⟨middle, hhead, rfl⟩
    · obtain ⟨rfl, rfl⟩ : middle = [] ∧ back = [m] := by
        cases middle with
        | nil => exact ⟨rfl, hmiddle.symm⟩
        | cons d middle =>
          have hnil := (List.cons.inj hmiddle).2
          exact absurd (List.append_eq_nil_iff.mp hnil.symm).2 hback
      exact headEnd?_of_ne (hm.ne (by decide))
    · cases middle with
      | nil => exact headEnd?_of_ne (hm.ne (by decide))
      | cons d middle =>
        rw [List.append_assoc]
        exact hnone front (d :: middle) hhead (List.cons_ne_nil d middle)
  have hcount : 1 + head.spaces.length + head.name.length = (('n', 'n') :: matched).length := by
    rw [List.length_cons, hlength]
    omega
  rw [hrest, hcount, cutBodies_matched, hlast, cutBodies_noHead hquiet, map_shown]
  have hend : Pattern.lastOr head.name.getLast? ((heading ++ [(m, m)]).map Prod.snd) = some m := by
    simp [Pattern.lastOr]
  have htext : (('n', 'n') :: matched).map Prod.fst ++ (heading ++ [(m, m)]).map Prod.fst =
      'n' :: textOf head.signature ++ [m] := by
    rw [← marked_fst head.signature, hsplit]
    simp
  rw [hend, htext]

/-- The text of a head, part by part. -/
theorem text_tokens : textOf head.tokens = textOf head.before ++ 'f' :: 'n' :: textOf head.signature := by
  simp [tokens, RustToken.text]

/-- The code between the keyword and a mark is all that is cut off before it. -/
theorem cutBodies_keyword {previous : Option Char} (hprevious : previous.any chars.word = false) {m : Char}
    (hm : IsMark m) (more : List (Char × Char)) :
    cutBodies chars previous 0 0 (('f', 'f') :: head.rest ((m, m) :: more)) =
      match signatureEnd? 0 (head.heading ++ m :: more.map Prod.snd) with
      | none =>
        (cutBodies chars (some 'f') 0 (1 + head.spaces.length + head.name.length)
          (head.rest ((m, m) :: more))).map ('f' :: ·)
      | some body => (bodyEnd? 0 body).bind fun rest =>
        (cutBodies chars (some 'f') ((head.rest ((m, m) :: more)).length - rest.length)
          (1 + head.spaces.length + head.name.length) (head.rest ((m, m) :: more))).map
          (((('f', 'f') :: head.rest ((m, m) :: more)).take
            ((head.rest ((m, m) :: more)).length + 1 - body.length)).map Prod.fst ++ bodyMarker ++ ·) := by
  have hmatched : (head.rest ((m, m) :: more)).length - (head.heading ++ m :: more.map Prod.snd).length =
      1 + head.spaces.length + head.name.length := by
    rw [length_rest, List.length_append, List.length_cons, List.length_cons, List.length_map]
    omega
  rw [cutBodies, if_pos rfl]
  dsimp only
  rw [head.headEnd?_rest hprevious hm]
  dsimp only
  rw [if_neg (not_not.mpr rfl), hmatched]
  simp only [List.length_map, List.length_cons]

/-- **A declaration is kept.** -/
theorem cutBodies_declaration (hgoes : GoesOn head.heading) {previous : Option Char}
    (hprevious : previous.any chars.word = false) (more : List (Char × Char)) :
    cutBodies chars previous 0 0 (marked head.before ++ ('f', 'f') :: head.rest ((';', ';') :: more)) =
      (cutBodies chars (some ';') 0 0 more).map (textOf head.tokens ++ [';'] ++ ·) := by
  have hmark : IsMark ';' := by simp [IsMark]
  rw [head.cutBodies_before hprevious hmark, head.cutBodies_keyword (head.previous_before hprevious) hmark,
    (hgoes _).1, Assure.signatureEnd?, if_pos ⟨rfl, .inr rfl⟩, if_pos rfl]
  dsimp only
  rw [head.cutBodies_rest hmark, text_tokens]
  cases cutBodies chars (some ';') 0 0 more <;> simp

/-- **The body of a function is replaced.** -/
theorem cutBodies_function (hgoes : GoesOn head.heading) (body : RustBody chars) {previous : Option Char}
    (hprevious : previous.any chars.word = false) (more : List (Char × Char)) :
    cutBodies chars previous 0 0 (marked head.before ++ ('f', 'f') ::
        head.rest (('\x7b', '\x7b') :: (marked body.tokens ++ ('\x7d', '\x7d') :: more))) =
      (cutBodies chars (some '\x7d') 0 0 more).map (textOf head.tokens ++ bodyMarker ++ ·) := by
  have hmark : IsMark '\x7b' := by simp [IsMark]
  let text := ('n', 'n') :: (marked head.signature ++ ('\x7b', '\x7b') :: marked body.tokens)
  have hrest : head.rest (('\x7b', '\x7b') :: (marked body.tokens ++ ('\x7d', '\x7d') :: more)) =
      text ++ ('\x7d', '\x7d') :: more := by simp [text, rest]
  have hend : bodyEnd? 0 ('\x7b' :: (marked body.tokens ++ ('\x7d', '\x7d') :: more).map Prod.snd) =
      some (more.map Prod.snd) := by
    rw [List.map_append, marked_snd, bodyEnd?_pos (by decide), body.nested.bodyEnd? (by decide), List.map_cons,
      Assure.bodyEnd?, if_pos (by decide)]
  have hskip : (text ++ ('\x7d', '\x7d') :: more).length - (more.map Prod.snd).length = text.length + 1 := by
    simp only [List.length_map, List.length_append, List.length_cons]
    omega
  have hmatched : 1 + head.spaces.length + head.name.length ≤ text.length := by
    simp only [text, List.length_cons, List.length_append, length_signature]
    omega
  have htake : (('f', 'f') :: (text ++ ('\x7d', '\x7d') :: more)).take
      ((text ++ ('\x7d', '\x7d') :: more).length + 1 -
        ('\x7b' :: (marked body.tokens ++ ('\x7d', '\x7d') :: more).map Prod.snd).length) =
      ('f', 'f') :: ('n', 'n') :: marked head.signature := by
    have hsplit : ('f', 'f') :: (text ++ ('\x7d', '\x7d') :: more) =
        (('f', 'f') :: ('n', 'n') :: marked head.signature) ++
          ('\x7b', '\x7b') :: (marked body.tokens ++ ('\x7d', '\x7d') :: more) := by simp [text]
    have hlength : (text ++ ('\x7d', '\x7d') :: more).length + 1 -
        ('\x7b' :: (marked body.tokens ++ ('\x7d', '\x7d') :: more).map Prod.snd).length =
        (('f', 'f') :: ('n', 'n') :: marked head.signature).length := by
      simp only [text, List.length_cons, List.length_append, List.length_map]
      omega
    rw [hlength, hsplit, List.take_left]
  rw [head.cutBodies_before hprevious hmark, head.cutBodies_keyword (head.previous_before hprevious) hmark,
    (hgoes _).1, Assure.signatureEnd?, if_pos ⟨rfl, .inl rfl⟩, if_neg (by decide)]
  dsimp only
  rw [hend, Option.bind_some, hrest, hskip, htake, cutBodies_cut rfl hmatched, text_tokens, map_shown]
  simp

end RustHead

/-! ## The marker in a source -/

/-- A character of the text that begins no other token is a token of code. -/
theorem code_of_text {c m : Char} (hc : c ∉ ['"', 'r', '\'', '/']) (hm : m ≠ c) {tokens : List RustToken}
    {more text : List Char} (h : textOf tokens ++ m :: more = c :: text) :
    ∃ tokens', tokens = .code c :: tokens' ∧ textOf tokens' ++ m :: more = text := by
  cases tokens with
  | nil => exact absurd (List.cons.inj h).1 hm
  | cons token tokens =>
    rw [textOf_cons, List.append_assoc] at h
    have hhead : token.text.head? = some c := by
      cases htext : token.text with
      | nil => cases token <;> cases htext
      | cons d rest =>
        rw [htext] at h
        rw [(List.cons.inj h).1]
        rfl
    cases token with
    | code d =>
      obtain rfl := Option.some.inj hhead
      exact ⟨tokens, rfl, (List.cons.inj h).2⟩
    | str | rawStr | chr | escaped | lifetime | lineComment | blockComment =>
      exact absurd (by rw [← Option.some.inj hhead]; decide) hc

/-- Where the text goes on as the marker does, so do the tokens. -/
theorem marker_tokens {m : Char} (hm : m ∈ ['\x7b', ';']) {tokens : List RustToken}
    (hsafe : BlankSafe chars (tokens ++ [.code '\x7b'])) {more out : List Char}
    (h : textOf tokens ++ m :: more = bodyMarker.tail ++ out) :
    ∃ tail tokens', tokens = .code ' ' :: .blockComment tail :: .code ' ' :: .code '\x7d' :: tokens' := by
  have hne : ∀ {c}, c ∉ ['\x7b', ';'] → m ≠ c := fun hc heq => hc (heq ▸ hm)
  obtain ⟨tokens, rfl, hstar⟩ := code_of_text (c := ' ') (by decide) (hne (by decide)) h
  clear h
  obtain ⟨-, -, -, hsafe⟩ := hsafe
  cases tokens with
  | nil => exact absurd (List.cons.inj hstar).1 (hne (by decide))
  | cons token tokens =>
    obtain ⟨hformed, hfits, -⟩ := hsafe
    rw [textOf_cons, List.append_assoc] at hstar
    cases token with
    | code c =>
      -- a slash before a star is no code
      obtain ⟨rfl, hnext⟩ := List.cons.inj hstar
      have hnext : textOf tokens ++ m :: more = bodyMarker.tail.tail.tail ++ out := hnext
      exfalso
      apply (hfits.1 rfl).2
      cases htokens : textOf tokens with
      | nil =>
        rw [htokens] at hnext
        exact absurd (List.cons.inj hnext).1 (hne (by decide))
      | cons d text =>
        rw [htokens] at hnext
        show (textOf (tokens ++ [.code '\x7b'])).head? = some '*'
        rw [textOf_append, htokens, (List.cons.inj hnext).1]
        rfl
    | blockComment tail =>
      have hclose := congrArg (closeNested 1) (List.cons.inj (List.cons.inj hstar).2).2
      change closeNested 1 (tail ++ (textOf tokens ++ m :: more)) = ' ' :: '\x7d' :: out at hclose
      rw [closeNested_tail _ 1 tail hformed] at hclose
      obtain ⟨tokens, rfl, hbrace⟩ := code_of_text (c := ' ') (by decide) (hne (by decide)) hclose
      obtain ⟨tokens, rfl, -⟩ := code_of_text (c := '\x7d') (by decide) (hne (by decide)) hbrace
      exact ⟨tail, tokens, rfl⟩
    | lineComment body => exact absurd (List.cons.inj (List.cons.inj hstar).2).1 (by decide)
    | str | rawStr | chr | escaped | lifetime => exact absurd (List.cons.inj hstar).1 (by decide)

/-- Blanks in front of the brace do not hide it. -/
theorem marker_code (chars : CharClass) (tail : List Char) (tokens : List RustToken) :
    ((blankedOf (.code ' ' :: .blockComment tail :: .code ' ' :: .code '\x7d' :: tokens)).dropWhile
      chars.space).head? = some '\x7d' := by
  have hblank : ∀ c ∈ ' ' :: (blanks (RustToken.text (.blockComment tail)) ++ [' ']), chars.space c = true := by
    intro c hc
    have hspace : c = ' ' ∨ c = '\n' := by
      simp only [List.mem_cons, List.mem_append, List.not_mem_nil, or_false] at hc
      rcases hc with hc | hc | hc
      · exact .inl hc
      · exact mem_blanks hc
      · exact .inl hc
    rcases hspace with rfl | rfl <;> exact chars.space_ascii _ (by decide)
  have hcode : blankedOf (.code ' ' :: .blockComment tail :: .code ' ' :: .code '\x7d' :: tokens) =
      (' ' :: (blanks (RustToken.text (.blockComment tail)) ++ [' '])) ++ '\x7d' :: blankedOf tokens := by
    have := blankedOf_append_code (c := '\x7d') (by decide)
      [.code ' ', .blockComment tail, .code ' '] tokens
    rw [List.cons_append, List.cons_append, List.cons_append, List.nil_append] at this
    rw [this]
    rfl
  rw [hcode, List.dropWhile_append_of_pos hblank, List.dropWhile_cons_of_neg]
  · rfl
  · simp [chars.space_ascii '\x7d' (by decide)]

/-- **Where a signature has a brace of its own the marker comes too early.** -/
theorem RustHead.cutBodies_ne (head : RustHead chars) (hends : EndsWithin chars.space head.heading)
    {previous : Option Char} (hprevious : previous.any chars.word = false) {m : Char} (hm : m ∈ ['\x7b', ';'])
    (more : List (Char × Char)) (shown : List Char) :
    cutBodies chars previous 0 0 (marked head.before ++ ('f', 'f') :: head.rest ((m, m) :: more)) ≠
      some (textOf head.tokens ++ m :: shown) := by
  obtain ⟨front, inner, back, hheading, hinner, hne, hends⟩ := hends
  have hmark : IsMark m := by
    simp only [List.mem_cons, List.not_mem_nil, or_false] at hm
    rcases hm with rfl | rfl <;> simp [IsMark]
  have hword : IsMark '\x7b' := by simp [IsMark]
  have hcode : blankedOf head.signature =
      (head.spaces ++ (head.name ++ front)) ++ '\x7b' :: (inner ++ '\x7d' :: back) := by
    rw [head.code, hheading]
    simp
  have hsafe := blankSafe_of_append head.safe
  obtain ⟨tokens₁, tokens₂, hsignature, htokens₁, htokens₂⟩ := blankedOf_split hword.word (by decide) hword.space
    (fun token ht => wellFormed_of_blankSafe hsafe token (by simp [ht])) hcode
  have hlength : (inner ++ '\x7d' :: back).length = (marked tokens₂).length := by
    rw [← htokens₂, ← marked_snd, List.length_map]
  have hrest : ('f', 'f') :: head.rest ((m, m) :: more) = (('f', 'f') :: ('n', 'n') :: marked tokens₁) ++
      ('\x7b', '\x7b') :: (marked tokens₂ ++ (m, m) :: more) := by
    rw [RustHead.rest, hsignature, marked_append_code (by decide)]
    simp
  have hcount : (head.rest ((m, m) :: more)).length + 1 -
      ('\x7b' :: (inner ++ '\x7d' :: back) ++ m :: more.map Prod.snd).length =
      (('f', 'f') :: ('n', 'n') :: marked tokens₁).length := by
    have := congrArg List.length hrest
    simp only [List.length_append, List.length_cons, List.length_map] at this hlength ⊢
    omega
  rw [head.cutBodies_before hprevious hmark, head.cutBodies_keyword (head.previous_before hprevious) hmark,
    (hends _).2]
  dsimp only
  rw [hcount, hrest, List.take_left]
  intro heq
  obtain ⟨shown₁, heq, hshown⟩ := Option.map_eq_some_iff.mp heq
  obtain ⟨rest, -, heq⟩ := Option.bind_eq_some_iff.mp heq
  obtain ⟨out, -, rfl⟩ := Option.map_eq_some_iff.mp heq
  have hmarker : bodyMarker ++ out = '\x7b' :: (textOf tokens₂ ++ m :: shown) := by
    rw [text_tokens, hsignature] at hshown
    simpa [RustToken.text] using hshown
  have hsafe₂ : BlankSafe chars (tokens₂ ++ [.code '\x7b']) := by
    have : BlankSafe chars ((.code 'n' :: (tokens₁ ++ [.code '\x7b'])) ++ (tokens₂ ++ [.code '\x7b'])) := by
      simpa [hsignature] using hsafe.2.2.2
    exact blankSafe_of_append this
  obtain ⟨tail, tokens, rfl⟩ := marker_tokens hm hsafe₂ (List.cons.inj hmarker).2.symm
  have hhead := marker_code chars tail tokens
  rw [htokens₂] at hhead
  obtain ⟨c, rest, hdrop⟩ := List.exists_cons_of_ne_nil hne
  apply hinner.head_ne chars
  rw [List.dropWhile_append, hdrop] at hhead
  rw [hdrop]
  exact hhead

/-! ## Sources in the loop -/

/-- A signature goes on through text without brackets and semicolons. -/
theorem goesOn_of_forall {code : List Char}
    (h : ∀ c ∈ code, c ∉ ['(', ')', '[', ']', '\x7b', '\x7d'] ∧ c ≠ ';') : GoesOn code := by
  induction code with
  | nil => exact fun rest => ⟨rfl, Iff.rfl⟩
  | cons c code ih =>
    obtain ⟨hc, hend⟩ := h c List.mem_cons_self
    exact (goesOn_singleton hc hend).append (ih fun d hd => h d (List.mem_cons_of_mem c hd))

/-- The condition on a signature is one on its heading. -/
theorem RustHead.goesOn_keyword (head : RustHead chars) : GoesOn (head.spaces ++ head.name) := by
  apply goesOn_of_forall
  intro c hc
  have hclass : ∀ d ∈ ['(', ')', '[', ']', '\x7b', '\x7d', ';'], chars.space d = false ∧ chars.word d = false := by
    intro d hd
    simp only [List.mem_cons, List.not_mem_nil, or_false] at hd
    rcases hd with rfl | rfl | rfl | rfl | rfl | rfl | rfl <;>
      exact ⟨chars.space_ascii _ (by decide), chars.word_ascii _ (by decide)⟩
  have hnot : c ∉ ['(', ')', '[', ']', '\x7b', '\x7d', ';'] := by
    intro hmem
    obtain ⟨hspace, hword⟩ := hclass c hmem
    rcases List.mem_append.mp hc with hc | hc
    · exact absurd (head.spaces_space c hc) (by simp [hspace])
    · exact absurd (head.name_word c hc) (by simp [hword])
  simp only [List.mem_cons, List.not_mem_nil, or_false, not_or] at hnot ⊢
  tauto

/-- A front that is shown before a result can be taken off both sides. -/
theorem map_append_eq_some {front rest : List Char} {result : Option (List Char)} :
    result.map (front ++ ·) = some (front ++ rest) ↔ result = some rest := by
  cases result <;> simp

/-- The mark after a function or a declaration. -/
def itemMark (item : RustHead chars × Option (RustBody chars)) : Char := if item.2.isSome then '\x7d' else ';'

/-- The marked text of a head, with what follows. -/
theorem marked_head (head : RustHead chars) (tokens : List RustToken) : marked (head.tokens ++ tokens) =
    marked head.before ++ ('f', 'f') :: ('n', 'n') :: marked (head.signature ++ tokens) := by
  have hn := marked_append_code (c := 'n') (by decide) [] (head.signature ++ tokens)
  rw [List.nil_append] at hn
  rw [RustHead.tokens, List.append_assoc, List.cons_append, List.cons_append, marked_append_code (by decide), hn]
  rfl

/-- The marked text of a declaration without a body. -/
theorem marked_declaration (head : RustHead chars) (tokens : List RustToken) :
    marked (itemTokens (head, none) ++ tokens) =
      marked head.before ++ ('f', 'f') :: head.rest ((';', ';') :: marked tokens) := by
  rw [itemTokens, List.append_assoc, marked_head, List.singleton_append, marked_append_code (by decide)]
  rfl

/-- The marked text of a function with its body. -/
theorem marked_function (head : RustHead chars) (body : RustBody chars) (tokens : List RustToken) :
    marked (itemTokens (head, some body) ++ tokens) = marked head.before ++ ('f', 'f') ::
      head.rest (('\x7b', '\x7b') :: (marked body.tokens ++ ('\x7d', '\x7d') :: marked tokens)) := by
  rw [itemTokens, List.append_assoc, marked_head, List.cons_append, marked_append_code (by decide),
    List.append_assoc, List.singleton_append, marked_append_code (by decide)]
  rfl

/-- **The loop on a function or a declaration.** -/
theorem cutBodies_item (item : RustHead chars × Option (RustBody chars)) {previous : Option Char}
    (hprevious : previous.any chars.word = false) (tokens : List RustToken) (shown : List Char) :
    cutBodies chars previous 0 0 (marked (itemTokens item ++ tokens)) =
        some (itemShown (item.1, item.2.isSome) ++ shown) ↔
      BracesInside 0 (blankedOf item.1.signature) ∧
        cutBodies chars (some (itemMark item)) 0 0 (marked tokens) = some shown := by
  obtain ⟨head, body⟩ := item
  have hbraces : BracesInside 0 (blankedOf head.signature) ↔ BracesInside 0 head.heading := by
    rw [head.code, ← List.append_assoc, (head.goesOn_keyword _).2]
  rw [hbraces]
  rcases head.heading_nested.goesOn_or with hgoes | hends
  · have hinside : BracesInside 0 head.heading := by simpa [BracesInside] using (hgoes []).2
    rw [and_iff_right hinside]
    cases body with
    | none =>
      rw [marked_declaration, head.cutBodies_declaration hgoes hprevious]
      exact map_append_eq_some
    | some body =>
      rw [marked_function, head.cutBodies_function hgoes body hprevious]
      exact map_append_eq_some
  · have hinside : ¬ BracesInside 0 head.heading := by
      obtain ⟨front, inner, back, -, -, -, hrest⟩ := hends
      simpa using (hrest []).1
    refine iff_of_false ?_ fun h => hinside h.1
    cases body with
    | none =>
      rw [marked_declaration, Option.isSome_none, itemShown, List.append_assoc]
      exact head.cutBodies_ne hends hprevious (by decide) _ shown
    | some body =>
      rw [marked_function, Option.isSome_some, itemShown, List.append_assoc]
      exact head.cutBodies_ne hends hprevious (by decide) _ (bodyMarker.tail ++ shown)

/-- **The loop on a source**, after a character that is no word character. -/
theorem cutBodies_items {tail : List RustToken} (htail : NoHead chars none (blankedOf tail) []) :
    ∀ (items : List (RustHead chars × Option (RustBody chars))) {previous : Option Char},
      previous.any chars.word = false →
        (cutBodies chars previous 0 0 (marked (items.flatMap itemTokens ++ tail)) =
            some ((items.map fun item => (item.1, item.2.isSome)).flatMap itemShown ++ textOf tail) ↔
          ∀ item ∈ items, BracesInside 0 (blankedOf item.1.signature))
  | [], previous, hprevious => by
    have hquiet : NoHead chars previous ((marked tail).map Prod.snd)
        (([] : List (Char × Char)).map Prod.snd) := by
      rw [marked_snd]
      cases previous with
      | none => exact htail
      | some c => exact htail.previous hprevious
    have hkept := cutBodies_noHead hquiet
    rw [List.append_nil, marked_fst, cutBodies, Option.map_some, List.append_nil] at hkept
    refine iff_of_true hkept fun item hitem => ?_
    cases hitem
  | item :: items, previous, hprevious => by
    have hmark : (some (itemMark item)).any chars.word = false := by
      rw [itemMark, Option.any_some]
      split <;> exact chars.word_ascii _ (by decide)
    rw [List.forall_mem_cons, ← cutBodies_items htail items hmark, ← cutBodies_item item hprevious]
    rw [List.flatMap_cons, List.map_cons, List.flatMap_cons, List.append_assoc, List.append_assoc]

namespace RustSource

/-- The tokens of a source are those of its text. -/
theorem blankSafe_items {tail : List RustToken} (htail : BlankSafe chars tail) :
    ∀ items : List (RustHead chars × Option (RustBody chars)), BlankSafe chars (items.flatMap itemTokens ++ tail)
  | [] => htail
  | (head, body) :: items => by
    have ih := blankSafe_items htail items
    have hsafe : BlankSafe chars (head.tokens ++ [.code '\x7b']) := by
      have := head.safe
      simpa [RustHead.tokens] using this
    rw [List.flatMap_cons, List.append_assoc]
    cases body with
    | none =>
      rw [itemTokens, List.append_assoc]
      exact blankSafe_mark (by simp [IsMark]) (by simp [IsMark]) ih hsafe
    | some body =>
      rw [itemTokens, List.append_assoc, List.cons_append, List.append_assoc]
      refine blankSafe_mark (by simp [IsMark]) (by simp [IsMark]) ?_ hsafe
      exact blankSafe_mark (by simp [IsMark]) (by simp [IsMark]) ih body.safe

/-- For a source as described, the result is what should be shown exactly if all braces of
signatures are inside brackets. -/
theorem signaturesOnly_text (source : RustSource chars) :
    signaturesOnly chars source.text = some source.shown ↔ source.BracesInBrackets := by
  rw [signaturesOnly, text, blank_zip (blankSafe_items source.tail_safe source.items)]
  exact cutBodies_items source.tail_noHead source.items rfl

end RustSource

/-- **`signaturesOnly` gives every source with the same outside the same text, that of the outside with a marker
for each body**, if and only if no signature has a brace outside round and square brackets. -/
theorem signaturesOnly_iff (source : RustSource chars) :
    (∀ other : RustSource chars, other.outline = source.outline →
      signaturesOnly chars other.text = some source.shown) ↔ source.BracesInBrackets := by
  refine ⟨fun h => source.signaturesOnly_text.mp (h source rfl), fun h other houtline => ?_⟩
  have hshown : other.shown = source.shown := by rw [RustSource.shown, RustSource.shown, houtline]
  rw [← hshown, other.signaturesOnly_text]
  have hheads : other.items.map Prod.fst = source.items.map Prod.fst := by
    have := congrArg (fun outline => outline.1.map Prod.fst) houtline
    simpa [RustSource.outline, Function.comp_def] using this
  intro item hitem
  have hmem : item.1 ∈ source.items.map Prod.fst := hheads ▸ List.mem_map_of_mem hitem
  obtain ⟨item', hitem', heq⟩ := List.mem_map.mp hmem
  rw [← heq]
  exact h item' hitem'

/-! ## A constant argument -/

/-- Where the first letter of the keyword does not occur, no head begins. -/
theorem noHead_of_notMem {previous : Option Char} {code : List Char} (h : 'f' ∉ code) (following : List Char) :
    NoHead chars previous code following := by
  rintro front back rfl hback
  obtain ⟨c, back, rfl⟩ := List.exists_cons_of_ne_nil hback
  refine headEnd?_of_ne ?_
  rintro rfl
  exact h (by simp)

/-- `fn f() -> A<\x7bN\x7d> ` -/
def constantHead : RustHead .ascii where
  before := []
  signature := [' ', 'f', '(', ')', ' ', '-', '>', ' ', 'A', '<', '\x7b', 'N', '\x7d', '>', ' '].map .code
  spaces := [' ']
  name := ['f']
  heading := ['(', ')', ' ', '-', '>', ' ', 'A', '<', '\x7b', 'N', '\x7d', '>', ' ']
  safe := by decide +kernel
  code := rfl
  apart := rfl
  spaces_ne_nil := List.cons_ne_nil _ _
  spaces_space := by simp [CharClass.ascii]
  name_ne_nil := List.cons_ne_nil _ _
  name_word := by simp [CharClass.ascii]
  heading_apart := by decide +kernel
  heading_nested := by
    have hblock : Heading CharClass.ascii.space true ['\x7b', 'N', '\x7d'] :=
      .block (.plain (by decide) .nil) (by decide +kernel) .nil
    have hangles : Heading CharClass.ascii.space false ['<', '\x7b', 'N', '\x7d', '>', ' '] :=
      .angles hblock (.plain (by decide) .nil)
    have hresult : Heading CharClass.ascii.space false
        [' ', '-', '>', ' ', 'A', '<', '\x7b', 'N', '\x7d', '>', ' '] :=
      .plain (by decide) (.arrow (.plain (by decide) (.plain (by decide) hangles)))
    exact .group (show Delimiters '(' ')' by simp [Delimiters]) (by decide) .nil hresult
  before_noHead := noHead_of_notMem (by simp [blankedOf, pieces]) _
  heading_noHead := noHead_of_notMem (by decide) _

/-- A body of one letter. -/
def letterBody (c : Char) (h : c = 'x' ∨ c = 'y') : RustBody .ascii where
  tokens := [.code c]
  safe := by rcases h with rfl | rfl <;> decide +kernel
  nested := by rcases h with rfl | rfl <;> exact .plain (by decide) .nil

/-- The function with that body. -/
def constantArgument (c : Char) (h : c = 'x' ∨ c = 'y') : RustSource .ascii where
  items := [(constantHead, some (letterBody c h))]
  tail := []
  tail_safe := trivial
  tail_noHead := noHead_of_notMem (by simp [blankedOf, pieces]) _

/-- A constant argument in braces is taken for the body, and the body is shown. -/
theorem signaturesOnly_constantArgument :
    (constantArgument 'x' (.inl rfl)).outline = (constantArgument 'y' (.inr rfl)).outline ∧
      signaturesOnly .ascii (constantArgument 'x' (.inl rfl)).text ≠
        signaturesOnly .ascii (constantArgument 'y' (.inr rfl)).text := by
  refine ⟨rfl, ?_⟩
  decide +kernel

end Assure
