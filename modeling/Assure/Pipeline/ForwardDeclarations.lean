import Assure.Library.Spans
import Assure.Library.FindAll
import Assure.Library.Collections
import Assure.Pipeline.BraceDepth

/-!
# Forward declarations of dependencies

`_stripDependencyForwardDeclarations` looks for the names of the dependencies before a bracket at brace depth zero and
scans from there for a semicolon or a brace. Where the semicolon comes first it takes away everything from the start
of the name's line up to the semicolon, with the blanks and the line end behind it. It sees neither what stands before
the name on its line nor the lines before it.
-/

namespace Assure

open Assure.Library

variable (chars : CharClass) (isalpha : Char → Bool)

/-! ## The scans -/

/-- **`_findBalancedParenClose`**: what follows the bracket that closes an open one, so many more being open. -/
def afterParens : Nat → Nat → List Char → Option (List Char)
  | 0, _, _ => none
  | _ + 1, _, [] => none
  | fuel + 1, depth, ch :: rest =>
    if ch = '(' then afterParens fuel (depth + 1) rest
    else if ch = ')' then if depth = 0 then some rest else afterParens fuel (depth - 1) rest
    else if ch = '"' ∨ ch = '\'' then afterParens fuel depth (afterQuote ch rest)
    else afterParens fuel depth rest

/-- What follows the first end of a block comment. -/
def afterBlock? : List Char → Option (List Char)
  | [] => none
  | c :: rest => if c = '*' ∧ rest.head? = some '/' then some rest.tail else afterBlock? rest

/-- **`_scanForDeclarationTerminator`**: the text from the semicolon or the brace on. -/
def scanForDeclarationTerminator : Nat → List Char → Option (List Char)
  | 0, _ => none
  | _ + 1, [] => none
  | fuel + 1, ch :: rest =>
    if ch = '(' then (afterParens (rest.length + 1) 0 rest).bind (scanForDeclarationTerminator fuel)
    else if ch = '"' ∨ ch = '\'' then scanForDeclarationTerminator fuel (afterQuote ch rest)
    else if ch = '/' ∧ rest.head? = some '/' then
      match rest.dropWhile (· ≠ '\n') with
      | [] => none
      | _ :: left => scanForDeclarationTerminator fuel left
    else if ch = '/' ∧ rest.head? = some '*' then (afterBlock? rest.tail).bind (scanForDeclarationTerminator fuel)
    else if ch = ';' ∨ ch = '\x7b' then some (ch :: rest)
    else scanForDeclarationTerminator fuel rest

/-- What follows the semicolon of a forward declaration, by what follows the bracket behind its name. -/
def declarationEnd? (rest : List Char) : Option (List Char) :=
  (afterParens (rest.length + 1) 0 rest).bind fun rest =>
    match scanForDeclarationTerminator (rest.length + 1) rest with
    | some (ch :: rest) => if ch = ';' then some rest else none
    | _ => none

/-! ## The mentions -/

/-- One match of `\b(…|…)\s*\(`, the longer names before the shorter: what follows the bracket. -/
def mentionEnd? (names : List (List Char)) (before : Option Char) (text : List Char) : Option (List Char) :=
  if before.any chars.word ≠ text.head?.any chars.word then
    (names.insertionSort fun a b => b.length ≤ a.length).findSome? fun name =>
      if name <+: text then
        let rest := (text.drop name.length).dropWhile chars.space
        if rest.head? = some '(' then some rest.tail else none
      else none
  else none

/-- `finditer`: the text from each match on, and what follows its bracket. -/
def nameMatches (names : List (List Char)) (text : List Char) : List (List Char × List Char) :=
  findAll (fun before text => (mentionEnd? chars names before text).map fun rest => ((text, rest), rest)) text

/-- The start of the line of a place. -/
def lineStart (text : List Char) (i : Nat) : Nat := i - ((text.take i).reverse.takeWhile (· ≠ '\n')).length

/-- The blanks and the line end that go with a declaration. -/
def lineRest (rest : List Char) : Nat :=
  let blanks := rest.takeWhile fun c => c = ' ' ∨ c = '\t'
  blanks.length + if (rest.drop blanks.length).head? = some '\n' then 1 else 0

/-- The mentions at depth zero whose declaration ends in a semicolon: their starts, and the places behind the
semicolons. -/
def declarations (names : List (List Char)) (text : List Char) : List (Nat × Nat) :=
  let depthAt := computeBraceDepthAt isalpha (String.ofList text)
  (nameMatches chars names text).filterMap fun mention =>
    let start := text.length - mention.1.length
    if depthAt[start]? = some 0 then
      (declarationEnd? mention.2).map fun rest => (start, text.length - rest.length)
    else none

/-- **The spans to be removed**, in the order of `sort`. -/
def spansToRemove (names : List (List Char)) (text : List Char) : List (Nat × Nat) :=
  ((declarations chars isalpha names text).map fun found =>
    (lineStart text found.1, found.2 + lineRest (text.drop found.2))).insertionSort
      fun s t => s.1 < t.1 ∨ s.1 = t.1 ∧ s.2 ≤ t.2

/-- **`_stripDependencyForwardDeclarations`** -/
def stripDependencyForwardDeclarations (dependencyFunctionNames : List String) (snippet : String) : String :=
  let nameSet := (dependencyFunctionNames.filter (· ≠ "")).map String.toList
  String.ofList (cutSpans snippet.toList 0 (spansToRemove chars isalpha nameSet snippet.toList))

/-! ## What a scan leaves -/

variable {chars isalpha}

/-- The search for a closing bracket leaves no more than there was. -/
theorem afterParens_length : ∀ {fuel depth : Nat} {text rest : List Char}, afterParens fuel depth text = some rest →
    rest.length ≤ text.length
  | 0, _, _, _, h => by cases h
  | _ + 1, _, [], _, h => by cases h
  | fuel + 1, depth, ch :: text, rest, h => by
    rw [afterParens] at h
    rw [List.length_cons]
    split at h
    · exact Nat.le_succ_of_le (afterParens_length h)
    · split at h
      · split at h
        · rw [← Option.some.inj h]
          exact Nat.le_succ _
        · exact Nat.le_succ_of_le (afterParens_length h)
      · split at h
        · exact (afterParens_length h).trans (Nat.le_succ_of_le (afterQuote_length ch text))
        · exact Nat.le_succ_of_le (afterParens_length h)

/-- Nor does passing over a block comment. -/
theorem afterBlock?_length : ∀ {text rest : List Char}, afterBlock? text = some rest → rest.length ≤ text.length
  | [], _, h => by cases h
  | c :: text, rest, h => by
    rw [afterBlock?] at h
    rw [List.length_cons]
    split at h
    · rw [← Option.some.inj h, List.length_tail]
      omega
    · exact Nat.le_succ_of_le (afterBlock?_length h)

/-- Nor does the scan behind the parameters. -/
theorem scanForDeclarationTerminator_length : ∀ {fuel : Nat} {text rest : List Char},
    scanForDeclarationTerminator fuel text = some rest → rest.length ≤ text.length
  | 0, _, _, h => by cases h
  | _ + 1, [], _, h => by cases h
  | fuel + 1, ch :: text, rest, h => by
    rw [scanForDeclarationTerminator] at h
    rw [List.length_cons]
    split at h
    · obtain ⟨left, hclose, h⟩ := Option.bind_eq_some_iff.mp h
      have hle := afterParens_length hclose
      exact (scanForDeclarationTerminator_length h).trans (Nat.le_succ_of_le hle)
    · split at h
      · exact (scanForDeclarationTerminator_length h).trans (Nat.le_succ_of_le (afterQuote_length ch text))
      · split at h
        · split at h
          · cases h
          · rename_i c left hline
            have hle : (text.dropWhile (· ≠ '\n')).length ≤ text.length := (List.dropWhile_sublist _).length_le
            rw [hline, List.length_cons] at hle
            have := scanForDeclarationTerminator_length h
            omega
        · split at h
          · obtain ⟨left, hblock, h⟩ := Option.bind_eq_some_iff.mp h
            have hle := afterBlock?_length hblock
            rw [List.length_tail] at hle
            have := scanForDeclarationTerminator_length h
            omega
          · split at h
            · rw [← Option.some.inj h, List.length_cons]
            · exact Nat.le_succ_of_le (scanForDeclarationTerminator_length h)

/-- So a declaration ends behind where it begins. -/
theorem declarationEnd?_length {text rest : List Char} (h : declarationEnd? text = some rest) :
    rest.length ≤ text.length := by
  obtain ⟨left, hclose, h⟩ := Option.bind_eq_some_iff.mp h
  have hleft := afterParens_length hclose
  split at h
  · rename_i ch left' hscan
    have hle := scanForDeclarationTerminator_length hscan
    rw [List.length_cons] at hle
    split at h
    · rw [← Option.some.inj h]
      omega
    · cases h
  · cases h

/-! ## What is a mention -/

section

variable {names : List (List Char)} {name blanks text rest : List Char} {before : Option Char}

/-- **A match is a name, blanks and a bracket**, and begins where a word does or ends. -/
theorem mentionEnd?_shape (h : mentionEnd? chars names before text = some rest) :
    before.any chars.word ≠ text.head?.any chars.word ∧ ∃ name ∈ names, ∃ blanks,
      (∀ c ∈ blanks, chars.space c = true) ∧ text = name ++ (blanks ++ '(' :: rest) := by
  rw [mentionEnd?] at h
  split at h
  · rename_i hboundary
    obtain ⟨name, hin, h⟩ := List.exists_of_findSome?_eq_some h
    split at h
    · rename_i hprefix
      dsimp only at h
      split at h
      · rename_i hhead
        obtain ⟨after, rfl⟩ := hprefix
        rw [List.drop_left] at hhead h
        obtain ⟨rest', hcons⟩ := List.head?_eq_some_iff.mp hhead
        rw [hcons] at h
        obtain rfl : rest' = rest := Option.some.inj h
        refine ⟨hboundary, name, (List.mem_insertionSort _).mp hin, after.takeWhile chars.space,
          fun c hc => List.all_eq_true.mp List.all_takeWhile c hc, ?_⟩
        rw [← hcons, List.takeWhile_append_dropWhile]
      · cases h
    · cases h
  · cases h

/-- A bracket is no part of a word, and neither is a blank. -/
theorem not_word_of_blank (hblanks : ∀ c ∈ blanks, chars.space c = true) :
    ∀ c ∈ blanks ++ ['('], chars.word c = false := by
  intro c hc
  rcases List.mem_append.mp hc with hc | hc
  · by_contra hword
    have hspace := chars.disjoint c (Bool.eq_true_of_not_eq_false hword)
    rw [hblanks c hc] at hspace
    cases hspace
  · obtain rfl := List.mem_singleton.mp hc
    exact chars.word_ascii _ (by decide)

/-- A word that blanks and a bracket follow is the whole word that the text begins with. -/
theorem takeWhile_mention (hname : ∀ c ∈ name, chars.word c = true) (hblanks : ∀ c ∈ blanks, chars.space c = true) :
    (name ++ (blanks ++ '(' :: rest)).takeWhile chars.word = name := by
  have hstop : (blanks ++ '(' :: rest).takeWhile chars.word = [] := by
    have hnot := not_word_of_blank hblanks
    cases blanks with
    | nil => exact List.takeWhile_cons_of_neg (by rw [hnot '(' List.mem_cons_self]; exact Bool.false_ne_true)
    | cons c blanks =>
      exact List.takeWhile_cons_of_neg (by rw [hnot c List.mem_cons_self]; exact Bool.false_ne_true)
  rw [List.takeWhile_append_of_pos hname, hstop, List.append_nil]

/-- What follows the bracket behind blanks. -/
theorem dropWhile_blanks (hblanks : ∀ c ∈ blanks, chars.space c = true) :
    (blanks ++ '(' :: rest).dropWhile chars.space = '(' :: rest := by
  rw [List.dropWhile_append_of_pos hblanks]
  exact List.dropWhile_cons_of_neg (by rw [chars.space_ascii _ (by decide)]; decide)

/-- **A name before a bracket is matched** where no word goes before it. -/
theorem mentionEnd?_here (hwords : ∀ name ∈ names, ∀ c ∈ name, chars.word c = true) (hname : name ∈ names)
    (hne : name ≠ []) (hbefore : before.any chars.word = false) (hblanks : ∀ c ∈ blanks, chars.space c = true)
    (rest : List Char) : mentionEnd? chars names before (name ++ (blanks ++ '(' :: rest)) = some rest := by
  have hboundary : before.any chars.word ≠ (name ++ (blanks ++ '(' :: rest)).head?.any chars.word := by
    obtain ⟨c, more, rfl⟩ := List.exists_cons_of_ne_nil hne
    have hword := hwords _ hname c List.mem_cons_self
    rw [hbefore, List.cons_append, List.head?_cons, Option.any_some, hword]
    exact Bool.false_ne_true
  cases hfound : mentionEnd? chars names before (name ++ (blanks ++ '(' :: rest)) with
  | none =>
    rw [mentionEnd?, if_pos hboundary, List.findSome?_eq_none_iff] at hfound
    have hown := hfound name ((List.mem_insertionSort _).mpr hname)
    rw [if_pos (List.prefix_append ..)] at hown
    dsimp only at hown
    rw [List.drop_left, dropWhile_blanks hblanks, List.head?_cons, if_pos rfl] at hown
    cases hown
  | some rest' =>
    -- another name that matches here is this one
    obtain ⟨-, name', hname', blanks', hblanks', heq⟩ := mentionEnd?_shape hfound
    have hsame : name = name' := by
      rw [← takeWhile_mention (hwords name hname) hblanks, heq, takeWhile_mention (hwords name' hname') hblanks']
    subst hsame
    have hrest := congrArg (List.dropWhile chars.space) (List.append_cancel_left heq)
    rw [dropWhile_blanks hblanks, dropWhile_blanks hblanks'] at hrest
    rw [(List.cons.inj hrest).2]

/-- **A match** has the text from its place on, and what follows its bracket. -/
theorem nameMatches_match {mention : List Char × List Char} (h : mention ∈ nameMatches chars names text) :
    ∃ front, text = front ++ mention.1 ∧ mentionEnd? chars names front.getLast? mention.1 = some mention.2 := by
  obtain ⟨piece, hin⟩ := mem_findAll.mp h
  obtain ⟨front, rest, after, rfl, hmatch, -⟩ := match_of_mem_splitMatches hin
  obtain ⟨rest', hend, heq⟩ := Option.map_eq_some_iff.mp hmatch
  obtain ⟨rfl, rfl⟩ := Prod.mk.inj heq
  rw [Option.or_none] at hend
  exact ⟨front, rfl, hend⟩

/-- A mention of a name is a place in the text where one of the names stands. -/
theorem nameMatches_name {mention : List Char × List Char} (h : mention ∈ nameMatches chars names text) :
    mention.1 <:+ text ∧ mention.2.length < mention.1.length ∧ ∃ name ∈ names, name <+: mention.1 := by
  obtain ⟨front, rfl, hmatch⟩ := nameMatches_match h
  obtain ⟨-, name, hname, blanks, -, heq⟩ := mentionEnd?_shape hmatch
  refine ⟨List.suffix_append .., ?_, name, hname, heq ▸ List.prefix_append ..⟩
  rw [heq]
  simp only [List.length_append, List.length_cons]
  omega

/-- **A name before a bracket is found**, since no match of the text before it reaches into a word. -/
theorem mem_nameMatches_here (hwords : ∀ name ∈ names, ∀ c ∈ name, chars.word c = true) (hname : name ∈ names)
    (hne : name ≠ []) {front : List Char} (hbefore : front.getLast?.any chars.word = false)
    (hblanks : ∀ c ∈ blanks, chars.space c = true) (rest : List Char) :
    (name ++ (blanks ++ '(' :: rest), rest) ∈ nameMatches chars names (front ++ (name ++ (blanks ++ '(' :: rest))) := by
  refine mem_findAll.mpr ?_
  obtain ⟨d, more, hcons⟩ := List.exists_cons_of_ne_nil hne
  have hd : chars.word d = true := hwords name hname d (hcons ▸ List.mem_cons_self)
  refine @mem_splitMatches_of_match _ _ _ _ rest _ (by rw [hcons]; exact List.cons_ne_nil _ _) _ _ _ (Nat.zero_le _)
    ?_ ?_
  · rw [Option.or_none, mentionEnd?_here hwords hname hne hbefore hblanks]
    rfl
  · rintro front' gap found' after' rfl hgap hmatch
    obtain ⟨rest', hend, heq⟩ := Option.map_eq_some_iff.mp hmatch
    obtain ⟨-, rfl⟩ := Prod.mk.inj heq
    obtain ⟨-, name', hname', blanks', hblanks', htext⟩ := mentionEnd?_shape hend
    have hpieces : gap ++ (name ++ (blanks ++ '(' :: rest)) = (name' ++ (blanks' ++ ['('])) ++ rest' := by
      rw [htext]
      simp
    rcases List.append_eq_append_iff.mp hpieces with ⟨z, hmatched, hname⟩ | ⟨z, -, rfl⟩
    · cases z with
      | nil =>
        rw [List.nil_append] at hname
        rw [hname]
      | cons d' z =>
        -- the match goes on over the end of a word or a blank and into the name
        rw [hcons] at hname
        obtain rfl : d = d' := (List.cons.inj hname).1
        obtain ⟨init, e, rfl⟩ : ∃ init e, gap = init ++ [e] :=
          ⟨_, _, (List.dropLast_append_getLast hgap).symm⟩
        rw [← List.append_assoc, List.getLast?_concat, Option.any_some] at hbefore
        exfalso
        rcases List.append_eq_append_iff.mp hmatched with ⟨y, -, hy⟩ | ⟨y, hy, -⟩
        · have hin : d ∈ blanks' ++ ['('] := hy ▸ List.mem_append_right _ List.mem_cons_self
          rw [not_word_of_blank hblanks' d hin] at hd
          cases hd
        · have hin : e ∈ name' := hy ▸ List.mem_append_left _ (List.mem_append_right _ (List.mem_singleton_self e))
          rw [hwords name' hname' e hin] at hbefore
          cases hbefore
    · rw [@List.length_append _ z]
      exact Nat.le_add_left _ _

end

/-! ## Lines -/

/-- A line starts at or before every place in it. -/
theorem lineStart_le (text : List Char) (i : Nat) : lineStart text i ≤ i := Nat.sub_le i _

/-- Later places are on the same line or on later ones. -/
theorem lineStart_mono (text : List Char) : Monotone (lineStart text) := by
  refine monotone_nat_of_le_succ fun i => ?_
  rw [lineStart, lineStart]
  cases hc : text[i]? with
  | none =>
    have hlength : text.length ≤ i := List.getElem?_eq_none_iff.mp hc
    rw [List.take_of_length_le hlength, List.take_of_length_le (Nat.le_succ_of_le hlength)]
    omega
  | some c =>
    rw [List.take_add_one, hc, Option.toList_some, List.reverse_append, List.reverse_singleton, List.singleton_append,
      List.takeWhile_cons]
    split
    · rw [List.length_cons]
      omega
    · rw [List.length_nil]
      omega

/-- What goes with a declaration beyond its semicolon is blank. -/
theorem blank_of_lineRest {text : List Char} {stop i : Nat} {c : Char} (hc : text[i]? = some c) (hstop : stop ≤ i)
    (hi : i < stop + lineRest (text.drop stop)) : chars.space c = true := by
  have hspace : ∀ d : Char, d = ' ' ∨ d = '\t' ∨ d = '\n' → chars.space d = true := by
    rintro d (rfl | rfl | rfl) <;> rw [chars.space_ascii _ (by decide)] <;> rfl
  have hget : (text.drop stop)[i - stop]? = some c := by
    rw [List.getElem?_drop, Nat.add_sub_cancel' hstop]
    exact hc
  refine hspace c ?_
  set rest := text.drop stop with hrest
  set blanks := rest.takeWhile fun c => c = ' ' ∨ c = '\t' with hblanks
  have hlength : lineRest rest = blanks.length + if (rest.drop blanks.length).head? = some '\n' then 1 else 0 := rfl
  rw [hlength] at hi
  rcases Nat.lt_or_ge (i - stop) blanks.length with hlt | hge
  · obtain ⟨hlt', hget⟩ := List.getElem?_eq_some_iff.mp hget
    have hprefix : blanks <+: rest := List.takeWhile_prefix _
    have hin : c ∈ blanks := by
      rw [← hget, ← hprefix.getElem hlt]
      exact List.getElem_mem hlt
    have hall := List.all_eq_true.mp List.all_takeWhile c hin
    exact (of_decide_eq_true hall).imp_right .inl
  · split at hi
    · rename_i hhead
      have heq : i - stop = blanks.length := by omega
      rw [List.head?_drop, ← heq, hget] at hhead
      exact .inr (.inr (Option.some.inj hhead))
    · omega

/-! ## What is removed -/

variable (chars isalpha)

/-- **A mention of a name that the scan takes for a declaration**: it stands at brace depth zero, and behind its
brackets a semicolon comes before a brace; its place, and the place behind the semicolon. -/
def Declares (names : List (List Char)) (text : List Char) (start stop : Nat) : Prop :=
  ∃ mention ∈ nameMatches chars names text, text.length - mention.1.length = start ∧
    (computeBraceDepthAt isalpha (String.ofList text))[start]? = some 0 ∧
    ∃ rest, declarationEnd? mention.2 = some rest ∧ text.length - rest.length = stop

/-- The characters that are left, with their places in the snippet. -/
def keptPlaces (names : List (List Char)) (text : List Char) : List (Char × Nat) :=
  cutSpans text.zipIdx 0 (spansToRemove chars isalpha names text)

variable {chars isalpha} {names : List (List Char)} {text : List Char}

/-- The declarations are what the scan takes for one at some mention. -/
theorem mem_declarations {start stop : Nat} :
    (start, stop) ∈ declarations chars isalpha names text ↔ Declares chars isalpha names text start stop := by
  rw [declarations, List.mem_filterMap]
  refine exists_congr fun mention => and_congr_right fun _ => ?_
  dsimp only
  constructor
  · intro h
    split at h
    · rename_i hdepth
      obtain ⟨rest, hend, heq⟩ := Option.map_eq_some_iff.mp h
      obtain ⟨rfl, rfl⟩ := Prod.mk.inj heq
      exact ⟨rfl, hdepth, rest, hend, rfl⟩
    · cases h
  · rintro ⟨rfl, hdepth, rest, hend, rfl⟩
    rw [if_pos hdepth, hend]
    rfl

/-- A declaration is not empty. -/
theorem Declares.start_lt {start stop : Nat} (h : Declares chars isalpha names text start stop) : start < stop := by
  obtain ⟨mention, hin, rfl, -, rest, hend, rfl⟩ := h
  obtain ⟨hsuffix, hlt, -⟩ := nameMatches_name hin
  have hlength := hsuffix.length_le
  have hrest := declarationEnd?_length hend
  omega

/-- A mention begins with a word. -/
theorem Declares.first {start stop : Nat} (h : Declares chars isalpha names text start stop)
    (hnames : ∀ name ∈ names, name ≠ [] ∧ ∀ c ∈ name, chars.word c = true) :
    ∃ c, text[start]? = some c ∧ chars.word c = true := by
  obtain ⟨mention, hin, rfl, -⟩ := h
  obtain ⟨hsuffix, -, name, hname, hprefix⟩ := nameMatches_name hin
  obtain ⟨hne, hword⟩ := hnames name hname
  obtain ⟨c, rest, rfl⟩ := List.exists_cons_of_ne_nil hne
  obtain ⟨front, rfl⟩ := hsuffix
  obtain ⟨after, hafter⟩ := hprefix
  refine ⟨c, ?_, hword c List.mem_cons_self⟩
  rw [List.length_append, Nat.add_sub_cancel_right, List.getElem?_append_right (Nat.le_refl _), Nat.sub_self,
    ← hafter]
  rfl

/-- **A mention has one end.** -/
theorem Declares.unique {start stop stop' : Nat} (h : Declares chars isalpha names text start stop)
    (h' : Declares chars isalpha names text start stop') : stop = stop' := by
  obtain ⟨mention, hin, hstart, -, rest, hend, rfl⟩ := h
  obtain ⟨mention', hin', hstart', -, rest', hend', rfl⟩ := h'
  obtain ⟨front, hfront, hmatch⟩ := nameMatches_match hin
  obtain ⟨front', hfront', hmatch'⟩ := nameMatches_match hin'
  have hlength : front.length = front'.length := by
    have h1 := congrArg List.length hfront
    have h2 := congrArg List.length hfront'
    rw [List.length_append] at h1 h2
    omega
  obtain ⟨rfl, hsame⟩ := List.append_inj (hfront.symm.trans hfront') hlength
  rw [← hsame, hmatch] at hmatch'
  rw [← Option.some.inj hmatch', hend] at hend'
  rw [Option.some.inj hend']

/-- What is removed is the declaration with the start of its first line and the rest of its last. -/
theorem mem_spansToRemove {span : Nat × Nat} : span ∈ spansToRemove chars isalpha names text ↔
    ∃ start stop, Declares chars isalpha names text start stop ∧
      (lineStart text start, stop + lineRest (text.drop stop)) = span := by
  rw [spansToRemove, List.mem_insertionSort, List.mem_map]
  constructor
  · rintro ⟨⟨start, stop⟩, hin, rfl⟩
    exact ⟨start, stop, mem_declarations.mp hin, rfl⟩
  · rintro ⟨start, stop, h, rfl⟩
    exact ⟨(start, stop), mem_declarations.mpr h, rfl⟩

/-- The spans come in the order of their starts, which is what cutting them needs. -/
theorem spansToRemove_pairwise (names : List (List Char)) (text : List Char) :
    (spansToRemove chars isalpha names text).Pairwise fun s t => s.1 ≤ t.1 := by
  have htotal : Std.Total fun s t : Nat × Nat => s.1 < t.1 ∨ s.1 = t.1 ∧ s.2 ≤ t.2 := ⟨fun s t => by omega⟩
  have htrans : IsTrans (Nat × Nat) fun s t => s.1 < t.1 ∨ s.1 = t.1 ∧ s.2 ≤ t.2 := ⟨fun s t u => by omega⟩
  exact (List.pairwise_insertionSort _ _).imp fun h => by omega

/-- The snippet is left with the characters at the places that are kept. -/
theorem stripDependencyForwardDeclarations_toList (names : List String) (snippet : String) :
    (stripDependencyForwardDeclarations chars isalpha names snippet).toList =
      (keptPlaces chars isalpha ((names.filter (· ≠ "")).map String.toList) snippet.toList).map Prod.fst := by
  rw [stripDependencyForwardDeclarations, String.toList_ofList, keptPlaces, ← cutSpans_map, List.zipIdx_map_fst]

end Assure
