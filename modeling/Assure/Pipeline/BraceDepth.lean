import Assure.Library.CodeScan

/-!
# Brace depths

`_computeBraceDepthAt` tells top-level code from the code inside functions by the depth in braces at each
character. It passes over strings, character literals and comments, and takes an apostrophe before a letter
for a lifetime or a label only if no other one follows within eleven characters. It does not know that block
comments nest.

The condition is shown to be enough, for every row of tokens that Rust reads in its text. It is not
necessary: a scanner that is out of step may come to the right depths all the same, where what it
swallows holds no brace.
-/

namespace Assure

open Assure.Library RustToken

/-- What follows the closing quote of a literal. -/
def afterQuote (quote : Char) : List Char → List Char
  | [] => []
  | [_] => []
  | c :: d :: rest =>
    if c = quote then d :: rest
    else if c = '\\' then afterQuote quote rest
    else afterQuote quote (d :: rest)

/-- What follows the end of a block comment; of one that does not end, its last character. -/
def afterBlock : List Char → List Char
  | [] => []
  | [c] => [c]
  | c :: d :: rest => if c = '*' ∧ d = '/' then rest else afterBlock (d :: rest)

/-- **The apostrophe of a lifetime or a label**, by what follows it. -/
def isLabel (isalpha : Char → Bool) (rest : List Char) : Bool :=
  rest.head?.any (fun c => isalpha c || c == '_') && !(rest.take 11).contains '\''

/-- What is left of a text after the token that the scanner takes it to begin with. -/
def skipToken (isalpha : Char → Bool) (c : Char) (rest : List Char) : List Char :=
  if c = '"' then afterQuote '"' rest
  else if c = '\'' then if isLabel isalpha rest then rest else afterQuote '\'' rest
  else if c = '/' ∧ rest.head? = some '/' then rest.dropWhile (· ≠ '\n')
  else if c = '/' ∧ rest.head? = some '*' then afterBlock rest.tail
  else rest

/-- The depths at the characters of a text and at its end, for as many tokens as there is fuel. -/
def braceDepths (isalpha : Char → Bool) : Nat → Int → List Char → List Int
  | 0, _, _ => []
  | _ + 1, depth, [] => [depth]
  | fuel + 1, depth, c :: rest =>
    let left := skipToken isalpha c rest
    let depth' := depth + ((if c = '\x7b' then 1 else 0) - (if c = '\x7d' then 1 else 0))
    List.replicate ((c :: rest).length - left.length) depth ++ braceDepths isalpha fuel depth' left

/-- **`_computeBraceDepthAt`** -/
def computeBraceDepthAt (isalpha : Char → Bool) (text : String) : List Int :=
  braceDepths isalpha (text.length + 1) 0 text.toList

/-! ## Tokens that are read right -/

/-- A literal ends at its quotation mark. -/
theorem afterQuote_close (quote : Char) (rest : List Char) : afterQuote quote (quote :: rest) = rest := by
  cases rest with
  | nil => rfl
  | cons d rest => exact if_pos rfl

/-- A plain character of it is passed over. -/
theorem afterQuote_plain {quote c : Char} (h : c ≠ quote) (hc : c ≠ '\\') (rest : List Char) :
    afterQuote quote (c :: rest) = afterQuote quote rest := by
  cases rest with
  | nil => rfl
  | cons d rest => rw [afterQuote, if_neg h, if_neg hc]

/-- A backslash and what follows it are passed over together. -/
theorem afterQuote_escape {quote : Char} (h : quote ≠ '\\') (c : Char) (rest : List Char) :
    afterQuote quote ('\\' :: c :: rest) = afterQuote quote rest := by
  rw [afterQuote, if_neg h.symm, if_pos rfl]

/-- Plain text is passed over. -/
theorem afterQuote_append {quote : Char} (rest : List Char) : ∀ {text : List Char},
    (∀ c ∈ text, c ≠ quote ∧ c ≠ '\\') → afterQuote quote (text ++ rest) = afterQuote quote rest
  | [], _ => rfl
  | c :: text, h => by
    obtain ⟨hquote, hslash⟩ := h c List.mem_cons_self
    rw [List.cons_append, afterQuote_plain hquote hslash]
    exact afterQuote_append rest fun d hd => h d (List.mem_cons_of_mem c hd)

/-- The pieces of a literal are passed over, up to its quotation mark. -/
theorem afterQuote_pieces {quote : Char} (hquote : quote ≠ '\\') (rest : List Char) :
    ∀ {pieces : List LiteralPiece}, (∀ piece ∈ pieces, ∀ c, piece = .plain c → c ≠ quote ∧ c ≠ '\\') →
      afterQuote quote (pieces.flatMap LiteralPiece.text ++ quote :: rest) = rest
  | [], _ => afterQuote_close _ _
  | piece :: pieces, h => by
    have ih := afterQuote_pieces hquote rest fun p hp => h p (List.mem_cons_of_mem piece hp)
    rw [List.flatMap_cons, List.append_assoc]
    cases piece with
    | plain c =>
      obtain ⟨hclose, hslash⟩ := h (.plain c) List.mem_cons_self c rfl
      exact (afterQuote_plain hclose hslash _).trans ih
    | escape c => exact (afterQuote_escape hquote c _).trans ih

/-- A comment in which none is opened is left at its end. -/
theorem afterBlock_tail (rest : List Char) : ∀ {tail : List Char}, closesComments 1 tail = true →
    ¬ ['/', '*'] <:+: tail → afterBlock (tail ++ rest) = rest
  | [], h, _ => by cases h
  | [_], h, _ => by cases h
  | c :: d :: cs, h, hflat => by
    rw [closesComments] at h
    rw [List.cons_append, List.cons_append, afterBlock]
    split at h
    · rename_i hend
      rw [if_pos hend]
      cases cs with
      | nil => rfl
      | cons e cs => cases h
    · rename_i hend
      rw [if_neg hend]
      split at h
      · rename_i hopen
        obtain ⟨rfl, rfl⟩ := hopen
        exact absurd ⟨[], cs, rfl⟩ hflat
      · exact afterBlock_tail rest h fun hin => hflat (hin.trans (List.suffix_cons c _).isInfix)

/-- The end of a line comment. -/
theorem dropWhile_line {front rest : List Char} (hfront : '\n' ∉ front)
    (hrest : rest = [] ∨ rest.head? = some '\n') : (front ++ rest).dropWhile (· ≠ '\n') = rest := by
  have hne : ∀ c ∈ front, decide (c ≠ '\n') = true := by
    intro c hc
    refine decide_eq_true ?_
    rintro rfl
    exact hfront hc
  rw [List.dropWhile_append_of_pos hne]
  rcases hrest with rfl | hhead
  · rfl
  · obtain ⟨rest, rfl⟩ := List.head?_eq_some_iff.mp hhead
    rfl

section

variable {isalpha : Char → Bool}

/-- A character of code that begins no literal and no comment. -/
def IsPlain (c : Char) : Prop := c ≠ '"' ∧ c ≠ '\'' ∧ c ≠ '/' ∧ c ≠ '\x7b' ∧ c ≠ '\x7d'

/-- Plain characters are passed over one by one. -/
theorem braceDepths_plain {depth : Int} {rest : List Char} : ∀ {text : List Char} {fuel : Nat},
    (∀ c ∈ text, IsPlain c) → braceDepths isalpha (fuel + text.length) depth (text ++ rest) =
      List.replicate text.length depth ++ braceDepths isalpha fuel depth rest
  | [], _, _ => rfl
  | c :: text, fuel, h => by
    obtain ⟨hquote, happ, hslash, hopen, hclose⟩ := h c List.mem_cons_self
    have ih : braceDepths isalpha (fuel + text.length) depth (text ++ rest) =
        List.replicate text.length depth ++ braceDepths isalpha fuel depth rest :=
      braceDepths_plain fun d hd => h d (List.mem_cons_of_mem c hd)
    have hskip : skipToken isalpha c (text ++ rest) = text ++ rest := by
      rw [skipToken, if_neg hquote, if_neg happ, if_neg fun h => hslash h.1, if_neg fun h => hslash h.1]
    have hlength : (c :: (text ++ rest)).length - (text ++ rest).length = 1 := by
      rw [List.length_cons]
      omega
    rw [List.length_cons, ← Nat.add_assoc, List.cons_append, braceDepths, hskip, hlength, if_neg hopen,
      if_neg hclose, Int.sub_self, Int.add_zero, ih]
    rfl

/-- **One token that the scanner passes over.** -/
theorem braceDepths_skip {fuel : Nat} {depth : Int} {c : Char} {front rest : List Char}
    (hskip : skipToken isalpha c (front ++ rest) = rest) :
    braceDepths isalpha (fuel + 1) depth (c :: (front ++ rest)) =
      List.replicate (front.length + 1) depth ++
        braceDepths isalpha fuel (depth + (RustToken.code c).braces) rest := by
  have hlength : (c :: (front ++ rest)).length - rest.length = front.length + 1 := by
    rw [List.length_cons, List.length_append]
    omega
  rw [braceDepths, hskip, hlength]
  rfl

/-- A comment is left at the first place that ends one. -/
theorem afterBlock_body (rest : List Char) : ∀ {body : List Char}, ¬ ['*', '/'] <:+: body ++ ['*'] →
    afterBlock (body ++ '*' :: '/' :: rest) = rest
  | [], _ => if_pos ⟨rfl, rfl⟩
  | [c], h => by
    have hne : ¬ (c = '*' ∧ '*' = '/') := fun hend => absurd hend.2 (by decide)
    rw [List.cons_append, List.nil_append, afterBlock, if_neg hne]
    exact if_pos ⟨rfl, rfl⟩
  | c :: d :: body, h => by
    have hne : ¬ (c = '*' ∧ d = '/') := by
      rintro ⟨rfl, rfl⟩
      exact h ⟨[], body ++ ['*'], rfl⟩
    rw [List.cons_append, List.cons_append, afterBlock, if_neg hne]
    have hnone : ¬ ['*', '/'] <:+: (d :: body) ++ ['*'] := fun hin => h (hin.trans (List.suffix_cons c _).isInfix)
    exact afterBlock_body rest hnone

/-- Passing over a literal leaves no more than there was. -/
theorem afterQuote_length (quote : Char) (text : List Char) : (afterQuote quote text).length ≤ text.length := by
  fun_induction afterQuote quote text with
  | case1 => exact Nat.le_refl _
  | case2 => exact Nat.zero_le _
  | case3 => exact Nat.le_succ _
  | case4 => simp only [List.length_cons]; omega
  | case5 => simp only [List.length_cons] at *; omega

/-- Passing over a block comment leaves no more than there was. -/
theorem afterBlock_length (text : List Char) : (afterBlock text).length ≤ text.length := by
  fun_induction afterBlock text with
  | case1 => exact Nat.le_refl _
  | case2 => exact Nat.le_refl _
  | case3 => simp only [List.length_cons]; omega
  | case4 => simp only [List.length_cons] at *; omega

variable (isalpha) in
/-- A token has a character at least. -/
theorem skipToken_length (c : Char) (rest : List Char) : (skipToken isalpha c rest).length ≤ rest.length := by
  rw [skipToken]
  split
  · exact afterQuote_length _ _
  · split
    · split
      · exact Nat.le_refl _
      · exact afterQuote_length _ _
    · split
      · exact (List.dropWhile_suffix _).length_le
      · split
        · refine (afterBlock_length _).trans ?_
          rw [List.length_tail]
          exact Nat.sub_le _ _
        · exact Nat.le_refl _

variable (isalpha) in
/-- The first depth is the one that the scanner is at. -/
theorem braceDepths_head (depth : Int) {fuel : Nat} {text : List Char} (hfuel : text.length < fuel) :
    (braceDepths isalpha fuel depth text).head? = some depth ∧
      (text = [] → (braceDepths isalpha fuel depth text).tail = []) := by
  obtain ⟨fuel, rfl⟩ : ∃ n, fuel = n + 1 := ⟨fuel - 1, by omega⟩
  cases text with
  | nil => exact ⟨rfl, fun _ => rfl⟩
  | cons c rest =>
    have hlength := skipToken_length isalpha c rest
    refine ⟨?_, fun h => absurd h (List.cons_ne_nil c rest)⟩
    obtain ⟨n, hn⟩ : ∃ n, (c :: rest).length - (skipToken isalpha c rest).length = n + 1 :=
      ⟨rest.length - (skipToken isalpha c rest).length, by rw [List.length_cons]; omega⟩
    rw [braceDepths, hn]
    rfl

/-! ## Texts that are read right -/

variable (isalpha) in
/-- **The scanner keeps in step** with the tokens before some others: no comment opened in a comment, no quote
and no backslash in a raw string, and each lifetime or label is taken for one, or the literal that it is taken
for ends at the apostrophe of the next one, with no brace or backslash between. -/
inductive InStepUpTo (after : List RustToken) : List RustToken → Prop
  | nil : InStepUpTo after []
  | code {c : Char} {tokens : List RustToken} (h : InStepUpTo after tokens) : InStepUpTo after (.code c :: tokens)
  | str {pieces : List LiteralPiece} {tokens : List RustToken} (h : InStepUpTo after tokens) :
    InStepUpTo after (.str pieces :: tokens)
  | rawStr {hashes : Nat} {body : List Char} {tokens : List RustToken} (hbody : ∀ c ∈ body, c ≠ '"' ∧ c ≠ '\\')
    (h : InStepUpTo after tokens) : InStepUpTo after (.rawStr hashes body :: tokens)
  | chr {c : Char} {tokens : List RustToken} (h : InStepUpTo after tokens) : InStepUpTo after (.chr c :: tokens)
  | escaped {c : Char} {more : List Char} {tokens : List RustToken} (h : InStepUpTo after tokens) :
    InStepUpTo after (.escaped c more :: tokens)
  | lineComment {body : List Char} {tokens : List RustToken} (h : InStepUpTo after tokens) :
    InStepUpTo after (.lineComment body :: tokens)
  | blockComment {tail : List Char} {tokens : List RustToken} (hflat : ¬ ['/', '*'] <:+: tail)
    (h : InStepUpTo after tokens) : InStepUpTo after (.blockComment tail :: tokens)
  | label {name : List Char} {tokens : List RustToken}
    (hlabel : isLabel isalpha (name ++ textOf (tokens ++ after)) = true) (h : InStepUpTo after tokens) :
    InStepUpTo after (.lifetime name :: tokens)
  | labels {name name' : List Char} {between tokens : List RustToken}
    (hlabel : isLabel isalpha (name ++ textOf (between ++ .lifetime name' :: tokens ++ after)) = false)
    (hquotes : ∀ c ∈ textOf between, c ≠ '\'' ∧ c ≠ '\\') (hbraces : ∀ token ∈ between, token.braces = 0)
    (h : InStepUpTo after tokens) : InStepUpTo after (.lifetime name :: (between ++ .lifetime name' :: tokens))

variable (isalpha) in
/-- **A text that the scanner keeps in step with.** -/
def InStep (tokens : List RustToken) : Prop := InStepUpTo isalpha [] tokens

/-- Word characters are plain. -/
theorem isPlain_of_word {chars : CharClass} {c : Char} (h : chars.word c = true) : IsPlain c ∧ c ≠ '\\' := by
  have hne : ∀ d : Char, d.toNat < 128 → (d.isAlphanum || d == '_') = false → c ≠ d := by
    rintro d hd hword rfl
    rw [chars.word_ascii c hd, hword] at h
    cases h
  exact ⟨⟨hne '"' (by decide) (by decide), hne '\'' (by decide) (by decide), hne '/' (by decide) (by decide),
    hne '\x7b' (by decide) (by decide), hne '\x7d' (by decide) (by decide)⟩,
    hne '\\' (by decide) (by decide)⟩

variable (isalpha) in
/-- A text before another one gets the depths of its pieces. -/
def ReadsTo (after text : List Char) (pieces : List (Nat × Int)) : Prop :=
  ∀ depth fuel, (text ++ after).length < fuel → ∃ left, after.length < left ∧
    braceDepths isalpha fuel depth (text ++ after) =
      depthsBefore depth pieces ++ braceDepths isalpha left (depthAfter depth pieces) after

section

variable {after tail : List Char} {pieces : List (Nat × Int)}

/-- Of no tokens nothing is read. -/
theorem ReadsTo.nil (after : List Char) : ReadsTo isalpha after [] [] := fun _ fuel hfuel => ⟨fuel, hfuel, rfl⟩

/-- Pieces of one depth can be cut in another way. -/
theorem ReadsTo.regroup (flat flat' : List (Nat × Int)) {text : List Char}
    (h : ReadsTo isalpha after text (flat ++ pieces)) (hflat : ∀ piece ∈ flat, piece.2 = 0)
    (hflat' : ∀ piece ∈ flat', piece.2 = 0)
    (hlength : (depthsBefore 0 flat).length = (depthsBefore 0 flat').length) :
    ReadsTo isalpha after text (flat' ++ pieces) := by
  intro depth fuel hfuel
  obtain ⟨left, hleft, hread⟩ := h depth fuel hfuel
  obtain ⟨hafter, hbefore⟩ := depthsBefore_flat depth hflat
  obtain ⟨hafter', hbefore'⟩ := depthsBefore_flat depth hflat'
  refine ⟨left, hleft, ?_⟩
  rw [hread, depthsBefore_append, depthAfter_append, hafter, hbefore, hlength, depthsBefore_append,
    depthAfter_append, hafter', hbefore']

/-- Plain characters. -/
theorem ReadsTo.plain {text : List Char} (hplain : ∀ c ∈ text, IsPlain c) (h : ReadsTo isalpha after tail pieces) :
    ReadsTo isalpha after (text ++ tail) ((text.length, 0) :: pieces) := by
  intro depth fuel hfuel
  rw [List.append_assoc, List.length_append] at hfuel
  obtain ⟨fuel, rfl⟩ : ∃ n, fuel = n + text.length := ⟨fuel - text.length, by omega⟩
  obtain ⟨left, hleft, hread⟩ := h depth fuel (by omega)
  refine ⟨left, hleft, ?_⟩
  rw [List.append_assoc, braceDepths_plain hplain, hread, depthsBefore, depthAfter, Int.add_zero,
    List.append_assoc]

/-- **One token.** -/
theorem ReadsTo.token (front tail : List Char) {c : Char} {braces : Int} (hbraces : (RustToken.code c).braces = braces)
    (hskip : skipToken isalpha c (front ++ (tail ++ after)) = tail ++ after)
    (h : ReadsTo isalpha after tail pieces) :
    ReadsTo isalpha after (c :: (front ++ tail)) ((front.length + 1, braces) :: pieces) := by
  intro depth fuel hfuel
  rw [List.cons_append, List.append_assoc, List.length_cons, List.length_append] at hfuel
  obtain ⟨fuel, rfl⟩ : ∃ n, fuel = n + 1 := ⟨fuel - 1, by omega⟩
  obtain ⟨left, hleft, hread⟩ := h (depth + braces) fuel (by omega)
  refine ⟨left, hleft, ?_⟩
  rw [List.cons_append, List.append_assoc, braceDepths_skip hskip, hbraces, hread, depthsBefore, depthAfter,
    List.append_assoc]

/-- **A raw string**: `r`, its hash marks, a string and the hash marks again. -/
theorem ReadsTo.raw {hashes : Nat} {body : List Char} (hbody : ∀ c ∈ body, c ≠ '"' ∧ c ≠ '\\')
    (h : ReadsTo isalpha after tail pieces) : ReadsTo isalpha after ((RustToken.rawStr hashes body).text ++ tail)
      (((RustToken.rawStr hashes body).text.length, 0) :: pieces) := by
  have hmarks : ∀ c ∈ hashMarks hashes, IsPlain c := by
    intro c hc
    rw [List.eq_of_mem_replicate hc]
    unfold IsPlain
    decide
  have hfirst : ∀ c ∈ 'r' :: hashMarks hashes, IsPlain c :=
    List.forall_mem_cons.mpr ⟨by unfold IsPlain; decide, hmarks⟩
  have hskip : skipToken isalpha '"' ((body ++ ['"']) ++ ((hashMarks hashes ++ tail) ++ after)) =
      (hashMarks hashes ++ tail) ++ after := by
    rw [skipToken, if_pos rfl, List.append_assoc, afterQuote_append _ hbody]
    exact afterQuote_close _ _
  have hread := (ReadsTo.token _ _ rfl hskip (h.plain hmarks)).plain hfirst
  have htext : (RustToken.rawStr hashes body).text ++ tail =
      ('r' :: hashMarks hashes) ++ '"' :: ((body ++ ['"']) ++ (hashMarks hashes ++ tail)) := by simp [text]
  rw [htext]
  refine ReadsTo.regroup [_, _, _] [_] hread ?_ (List.forall_mem_singleton.mpr rfl) ?_
  · exact List.forall_mem_cons.mpr ⟨rfl, List.forall_mem_cons.mpr ⟨rfl, List.forall_mem_singleton.mpr rfl⟩⟩
  · simp only [depthsBefore, text, List.length_append, List.length_replicate, List.length_cons, List.length_nil]
    omega

/-- **An apostrophe that is taken for a label**: the scanner goes on behind it. -/
theorem ReadsTo.label {name : List Char} (hname : ∀ c ∈ name, IsPlain c)
    (hlabel : isLabel isalpha (name ++ (tail ++ after)) = true) (h : ReadsTo isalpha after tail pieces) :
    ReadsTo isalpha after ('\'' :: (name ++ tail)) ((name.length + 1, 0) :: pieces) := by
  have hskip : skipToken isalpha '\'' ([] ++ ((name ++ tail) ++ after)) = (name ++ tail) ++ after := by
    rw [List.append_assoc, List.nil_append, skipToken, if_neg (by decide), if_pos rfl, if_pos hlabel]
  refine ReadsTo.regroup [_, _] [_] (ReadsTo.token [] (name ++ tail) rfl hskip (h.plain hname))
    (List.forall_mem_cons.mpr ⟨rfl, List.forall_mem_singleton.mpr rfl⟩) (List.forall_mem_singleton.mpr rfl) ?_
  simp [depthsBefore]

/-- **An apostrophe that is taken for a literal**: the scanner goes on behind the next one. -/
theorem ReadsTo.literal {body : List Char} (hbody : ∀ c ∈ body, c ≠ '\'' ∧ c ≠ '\\')
    (hlabel : isLabel isalpha ((body ++ ['\'']) ++ (tail ++ after)) = false) (h : ReadsTo isalpha after tail pieces) :
    ReadsTo isalpha after ('\'' :: ((body ++ ['\'']) ++ tail)) (((body ++ ['\'']).length + 1, 0) :: pieces) := by
  refine ReadsTo.token _ _ rfl ?_ h
  rw [skipToken, if_neg (by decide), if_pos rfl, hlabel, List.append_assoc _ ['\''], afterQuote_append _ hbody]
  exact afterQuote_close _ _

end

/-- **What the scanner keeps in step with gets its true depths.** -/
theorem InStepUpTo.reads {chars : CharClass} (halpha : isalpha '\\' = false) {after tokens : List RustToken}
    (hstep : InStepUpTo isalpha after tokens) (hlexed : WellLexed chars (tokens ++ after)) :
    ReadsTo isalpha (textOf after) (textOf tokens) (rows tokens) := by
  induction hstep with
  | nil => exact .nil _
  | @code c tokens _ ih =>
    obtain ⟨⟨hquote, happ⟩, ⟨hslash, -⟩, hrest⟩ := hlexed
    rw [List.append_eq, textOf_append] at hslash
    refine ReadsTo.token [] _ rfl ?_ (ih hrest)
    rw [List.nil_append, skipToken, if_neg hquote, if_neg happ, if_neg fun h => (hslash h.1).1 h.2,
      if_neg fun h => (hslash h.1).2 h.2]
  | @str pieces tokens _ ih =>
    obtain ⟨hpieces, -, hrest⟩ := hlexed
    refine ReadsTo.token _ _ rfl ?_ (ih hrest)
    rw [skipToken, if_pos rfl, List.append_assoc]
    exact afterQuote_pieces (by decide) _ (piece_plain hpieces)
  | rawStr hbody _ ih => exact (ih hlexed.2.2).raw hbody
  | @chr c tokens _ ih =>
    obtain ⟨⟨happ, hslash, -⟩, -, hrest⟩ := hlexed
    have hlabel : isLabel isalpha (([c] ++ ['\'']) ++ (textOf tokens ++ textOf after)) = false := by simp [isLabel]
    exact .literal (List.forall_mem_singleton.mpr ⟨happ, hslash⟩) hlabel (ih hrest)
  | @escaped c more tokens _ ih =>
    obtain ⟨⟨-, hmore⟩, -, hrest⟩ := hlexed
    refine ReadsTo.token ('\\' :: c :: (more ++ ['\''])) (textOf tokens) rfl ?_ (ih hrest)
    have hlabel : isLabel isalpha ('\\' :: c :: (more ++ ['\'']) ++ (textOf tokens ++ textOf after)) = false := by
      simp [isLabel, halpha]
    rw [skipToken, if_neg (by decide), if_pos rfl, hlabel]
    show afterQuote '\'' ('\\' :: c :: ((more ++ ['\'']) ++ (textOf tokens ++ textOf after))) = _
    rw [afterQuote_escape (by decide), List.append_assoc,
      afterQuote_append _ fun d hd => ⟨(hmore d hd).1, (hmore d hd).2.1⟩]
    exact afterQuote_close _ _
  | @lineComment body tokens _ ih =>
    obtain ⟨hbody, hfits, hrest⟩ := hlexed
    refine ReadsTo.token _ _ rfl ?_ (ih hrest)
    rw [List.append_eq, textOf_append] at hfits
    rw [skipToken, if_neg (by decide), if_neg (by decide), if_pos ⟨rfl, rfl⟩]
    exact dropWhile_line (List.not_mem_cons_of_ne_of_not_mem (by decide) hbody) hfits
  | @blockComment tail tokens hflat _ ih =>
    obtain ⟨htail, -, hrest⟩ := hlexed
    refine ReadsTo.token _ _ rfl ?_ (ih hrest)
    rw [skipToken, if_neg (by decide), if_neg (by decide), if_neg (by simp), if_pos ⟨rfl, rfl⟩]
    exact afterBlock_tail _ htail hflat
  | @label name tokens hlabel _ ih =>
    obtain ⟨⟨-, hname, -⟩, -, hrest⟩ := hlexed
    rw [textOf_append] at hlabel
    exact .label (fun c hc => (isPlain_of_word (hname c hc)).1) hlabel (ih hrest)
  | @labels name name' between tokens hlabel hquotes hbraces _ ih =>
    obtain ⟨⟨-, hname, -⟩, -, hbetween⟩ := hlexed
    rw [List.append_eq, List.append_assoc] at hbetween
    obtain ⟨⟨-, hname', -⟩, -, hrest⟩ := WellLexed.of_append hbetween
    have hplain' : ∀ c ∈ name', IsPlain c := fun c hc => (isPlain_of_word (hname' c hc)).1
    have hfront : ∀ c ∈ name ++ textOf between, c ≠ '\'' ∧ c ≠ '\\' := by
      intro c hc
      rcases List.mem_append.mp hc with hc | hc
      · exact ⟨(isPlain_of_word (hname c hc)).1.2.1, (isPlain_of_word (hname c hc)).2⟩
      · exact hquotes c hc
    have hliteral : (name ++ textOf between ++ ['\'']) ++ ((name' ++ textOf tokens) ++ textOf after) =
        name ++ textOf (between ++ .lifetime name' :: tokens ++ after) := by simp [text]
    have hread := ReadsTo.literal hfront (hliteral ▸ hlabel) ((ih hrest).plain hplain')
    have htext : textOf (.lifetime name :: (between ++ .lifetime name' :: tokens)) =
        '\'' :: ((name ++ textOf between ++ ['\'']) ++ (name' ++ textOf tokens)) := by simp [text]
    have hrows : rows (.lifetime name :: (between ++ .lifetime name' :: tokens)) =
        ((name.length + 1, 0) :: (rows between ++ [(name'.length + 1, 0)])) ++ rows tokens := by
      rw [rows_cons, rows_append, rows_cons, List.cons_append, List.append_assoc]
      rfl
    have hzero : ∀ piece ∈ rows between, piece.2 = 0 := by
      intro piece hpiece
      obtain ⟨token, htoken, rfl⟩ := List.mem_map.mp hpiece
      exact hbraces token htoken
    rw [htext, hrows]
    refine ReadsTo.regroup [_, _] _ hread
      (List.forall_mem_cons.mpr ⟨rfl, List.forall_mem_singleton.mpr rfl⟩) ?_ ?_
    · exact List.forall_mem_cons.mpr ⟨rfl, List.forall_mem_append.mpr ⟨hzero, List.forall_mem_singleton.mpr rfl⟩⟩
    · simp only [depthsBefore, depthsBefore_append, List.length_append, List.length_replicate, List.length_cons,
        List.length_nil,
        RustToken.depthsBefore_length]
      omega

/-- **The depths are the true ones** wherever the scanner keeps in step: for a lexically valid row of tokens the depth
that it computes at each character is the number of braces open there, comments and literals left out. By induction on
the tokens. -/
theorem computeBraceDepthAt_eq (chars : CharClass) (isalpha : Char → Bool) (halpha : isalpha '\\' = false)
    (tokens : List RustToken) (hlexed : WellLexed chars tokens) (hstep : InStep isalpha tokens) :
    computeBraceDepthAt isalpha (String.ofList (textOf tokens)) = trueDepths 0 tokens := by
  have hlexed' : WellLexed chars (tokens ++ []) := by
    rw [List.append_nil]
    exact hlexed
  have hread := hstep.reads halpha hlexed'
  have htrue := trueDepths_append tokens [] 0
  rw [List.append_nil] at htrue
  rw [computeBraceDepthAt, String.length_ofList, String.toList_ofList, htrue]
  obtain ⟨left, hleft, hdepths⟩ := hread 0 _ (by rw [textOf_nil, List.append_nil]; exact Nat.lt_succ_self _)
  obtain ⟨left, rfl⟩ : ∃ n, left = n + 1 := ⟨left - 1, by rw [textOf_nil, List.length_nil] at hleft; omega⟩
  rw [textOf_nil, List.append_nil] at hdepths
  exact hdepths

end

/-- Characters of code. -/
def codes (text : List Char) : List RustToken := text.map .code

/-- `<'a, 'b>{ /*}*/ "}" '\''}` -/
def twoLifetimes : List RustToken :=
  codes ['<'] ++ .lifetime ['a'] :: (codes [',', ' '] ++ .lifetime ['b'] :: (codes ['>', '\x7b', ' '] ++
    [.blockComment ['\x7d', '*', '/'], .code ' ', .str [.plain '\x7d'], .code ' ', .escaped '\'' [],
      .code '\x7d']))

/-- The theorem at a text with two lifetimes, which are no literals. -/
theorem computeBraceDepthAt_eq_twoLifetimes :
    computeBraceDepthAt Char.isAlpha (String.ofList (textOf twoLifetimes)) = trueDepths 0 twoLifetimes := by
  refine computeBraceDepthAt_eq .ascii Char.isAlpha (by decide) twoLifetimes (by decide +kernel) ?_
  refine .code (.labels (by decide +kernel) (by simp [codes, textOf, text]) (by decide +kernel) ?_)
  exact .code (.code (.code (.blockComment (by decide +kernel) (.code (.str (.code (.escaped (.code .nil))))))))

/-- `fn f<'a>() { 'b' }` -/
def lifetimeBeforeChar : List RustToken :=
  codes ['f', 'n', ' ', 'f', '<'] ++ .lifetime ['a'] :: (codes ['>', '(', ')', ' ', '\x7b', ' '] ++
    .chr 'b' :: codes [' ', '\x7d'])

/-- The lifetime is taken for a literal that ends at the quote of another one: the body of the function is
at depth 0. -/
theorem computeBraceDepthAt_lifetimeBeforeChar :
    WellLexed .ascii lifetimeBeforeChar ∧
      trueDepths 0 lifetimeBeforeChar = List.replicate 12 0 ++ List.replicate 6 1 ++ [0] ∧
      computeBraceDepthAt Char.isAlpha (String.ofList (textOf lifetimeBeforeChar)) = List.replicate 19 0 := by
  decide +kernel

end Assure
