import Mathlib.Data.List.Infix

/-!
# Patterns

A backtracking matcher tries the ways a pattern can match at a place one after the other. Here a
pattern is the list of those ways, in the order they are tried, so the first one is the match.
Sequencing tries every continuation of every way (`bind`), alternatives come one after the other
(`orElse`), and a repetition tries to go on before it stops (`many`).

A text is a list of characters and a place in it a `Cursor`, which knows the character before it:
`\b` looks at both sides. `\w`, `\d` and `\s` go beyond the ASCII characters, so what they hold
there is left open (`CharClass`).

What a pattern can match is read off its ways with `mem_bind`, and a greedy repetition has the way
that takes everything (`mem_many`).
-/

namespace Assure.Library

/-- **`\w`, `\d` and `\s`**: fixed on the ASCII characters; digits are word characters and spaces
are not. -/
structure CharClass where
  word : Char → Bool
  digit : Char → Bool
  space : Char → Bool
  word_ascii : ∀ c : Char, c.toNat < 128 → word c = (c.isAlphanum || c == '_')
  digit_ascii : ∀ c : Char, c.toNat < 128 → digit c = c.isDigit
  space_ascii : ∀ c : Char, c.toNat < 128 →
    space c = (9 ≤ c.toNat && c.toNat ≤ 13 || 28 ≤ c.toNat && c.toNat ≤ 32)
  digit_word : ∀ c, digit c = true → word c = true
  disjoint : ∀ c, word c = true → space c = false

/-- The classes on a text that is all ASCII. -/
def CharClass.ascii : CharClass where
  word c := c.isAlphanum || c == '_'
  digit c := c.isDigit
  space c := 9 ≤ c.toNat && c.toNat ≤ 13 || 28 ≤ c.toNat && c.toNat ≤ 32
  word_ascii _ _ := rfl
  digit_ascii _ _ := rfl
  space_ascii _ _ := rfl
  digit_word c h := by simp [Char.isAlphanum, h]
  disjoint c h := by
    have hword : (65 ≤ c.toNat ∧ c.toNat ≤ 90) ∨ (97 ≤ c.toNat ∧ c.toNat ≤ 122) ∨
        (48 ≤ c.toNat ∧ c.toNat ≤ 57) ∨ c.toNat = 95 := by
      rcases Bool.or_eq_true_iff.mp h with h | h
      · delta Char.isAlphanum Char.isAlpha Char.isUpper Char.isLower Char.isDigit at h
        simp only [Bool.or_eq_true, Bool.and_eq_true, decide_eq_true_eq, ge_iff_le,
          UInt32.le_iff_toNat_le] at h
        change ((65 ≤ c.toNat ∧ c.toNat ≤ 90) ∨ (97 ≤ c.toNat ∧ c.toNat ≤ 122)) ∨
          (48 ≤ c.toNat ∧ c.toNat ≤ 57) at h
        omega
      · obtain rfl : c = '_' := by simpa using h
        exact .inr (.inr (.inr rfl))
    simp only [Bool.or_eq_false_iff, Bool.and_eq_false_iff, decide_eq_false_iff_not]
    omega

/-- A place in a text: the character before it and what follows. -/
structure Cursor where
  before : Option Char
  rest : List Char

/-- **A pattern**: the ways to match at a place, in the order they are tried. -/
def Pattern (α : Type) := Cursor → List (α × Cursor)

namespace Pattern

variable {α : Type}

instance : Monad Pattern where
  pure a := fun cursor => [(a, cursor)]
  bind p f := fun cursor => (p cursor).flatMap fun way => f way.1 way.2

/-- `p|q` -/
def orElse (p q : Pattern α) : Pattern α := fun cursor => p cursor ++ q cursor

/-- One character of a class. -/
def one (p : Char → Bool) : Pattern Char
  | ⟨_, c :: rest⟩ => if p c then [(c, ⟨some c, rest⟩)] else []
  | ⟨_, []⟩ => []

/-- The characters of a literal text. -/
def chars : List Char → Pattern Unit
  | [] => pure ()
  | c :: text => do
    let _ ← one (· == c)
    chars text

/-- A literal text. -/
def lit (text : String) : Pattern Unit := chars text.toList

/-- `[…]*` -/
def many (p : Char → Bool) : Pattern (List Char) := fun cursor => go cursor.before cursor.rest
where
  /-- The repetition from a place on. -/
  go (before : Option Char) : List Char → List (List Char × Cursor)
    | [] => [([], ⟨before, []⟩)]
    | c :: rest =>
      if p c then
        (go (some c) rest).map (fun way => (c :: way.1, way.2)) ++ [([], ⟨before, c :: rest⟩)]
      else [([], ⟨before, c :: rest⟩)]

/-- `[…]+` -/
def many1 (p : Char → Bool) : Pattern (List Char) := do
  let c ← one p
  let cs ← many p
  return c :: cs

/-- `(?:…)*`: a repetition of a group. A pass that takes nothing ends it, so the length of the text
bounds the passes. -/
def star (p : Pattern Unit) : Pattern Unit := fun cursor => go cursor.rest.length cursor
where
  /-- At most so many passes. -/
  go : Nat → Cursor → List (Unit × Cursor)
    | 0, cursor => [((), cursor)]
    | passes + 1, cursor =>
      ((p cursor).filter fun way => way.2.rest.length < cursor.rest.length).flatMap
        (fun way => go passes way.2) ++ [((), cursor)]

/-- A repetition that stops as soon as it can. -/
def lazily (p : Pattern α) : Pattern α := fun cursor => (p cursor).reverse

/-- `(?:…)?` -/
def optional (p : Pattern Unit) : Pattern Unit := orElse p (pure ())

/-- `\b`: a word character on exactly one side. -/
def boundary (chars : CharClass) : Pattern Unit := fun cursor =>
  if (cursor.before.any chars.word) != (cursor.rest.head?.any chars.word) then [((), cursor)]
  else []

/-- `$` where it stands for the end of a line. -/
def lineEnd : Pattern Unit := fun cursor =>
  if cursor.rest.head?.all (· = '\n') then [((), cursor)] else []

/-- The places of a text, from the left. -/
def cursors (before : Option Char) : List Char → List Cursor
  | [] => [⟨before, []⟩]
  | c :: rest => ⟨before, c :: rest⟩ :: cursors (some c) rest

/-- **`re.search`**: the first way at the leftmost place that has one. -/
def search (p : Pattern α) (text : String) : Option (α × Cursor) :=
  ((cursors none text.toList).flatMap p).head?

/-- `re.search(…) is not None` -/
def found (p : Pattern α) (text : String) : Bool := (p.search text).isSome

/-- `re.sub` with a fixed replacement, for a pattern that takes a character at least. -/
def sub (p : Pattern α) (replacement text : String) : String :=
  String.ofList (go text.toList.length none text.toList)
where
  /-- The replacements from a place on. -/
  go : Nat → Option Char → List Char → List Char
    | 0, _, rest => rest
    | _, _, [] => []
    | fuel + 1, before, c :: rest =>
      match p ⟨before, c :: rest⟩ with
      | way :: _ => replacement.toList ++ go fuel way.2.before way.2.rest
      | [] => c :: go fuel (some c) rest

/-- `re.fullmatch(…) is not None`: some way takes the whole text. -/
def fullmatch (p : Pattern α) (text : String) : Bool :=
  (p ⟨none, text.toList⟩).any fun way => way.2.rest.isEmpty

/-- The group of the first way that takes the whole text. -/
def fullmatch? (p : Pattern α) (text : String) : Option α :=
  ((p ⟨none, text.toList⟩).find? fun way => way.2.rest.isEmpty).map Prod.fst

/-! ## The ways of a pattern -/

section Ways

variable {β : Type} {before : Option Char} {rest : List Char}

/-- The ways of two patterns in a row: a way of the first and from there one of the second. -/
theorem mem_bind {p : Pattern α} {f : α → Pattern β} {cursor : Cursor} {way : β × Cursor} :
    way ∈ (p >>= f) cursor ↔ ∃ first ∈ p cursor, way ∈ f first.1 first.2 :=
  List.mem_flatMap

/-- One character of the class is a way. -/
theorem mem_one {p : Char → Bool} {c : Char} (h : p c = true) :
    (c, (⟨some c, rest⟩ : Cursor)) ∈ one p ⟨before, c :: rest⟩ := by
  simp [one, h]

/-- A literal text matches itself. -/
theorem mem_chars (rest : List Char) : ∀ (text : List Char) (before : Option Char),
    ∃ after, ((), (⟨after, rest⟩ : Cursor)) ∈ chars text ⟨before, text ++ rest⟩
  | [], before => ⟨before, List.mem_singleton_self _⟩
  | c :: text, before => by
    obtain ⟨after, hafter⟩ := mem_chars rest text (some c)
    exact ⟨after, mem_bind.mpr ⟨_, mem_one (by simp), hafter⟩⟩

/-- A repetition can take all of the characters of its class. -/
theorem mem_many {p : Char → Bool} (rest : List Char) : ∀ (text : List Char) (before : Option Char),
    (∀ c ∈ text, p c = true) →
      ∃ after, (text, (⟨after, rest⟩ : Cursor)) ∈ many p ⟨before, text ++ rest⟩
  | [], before, _ => by
    refine ⟨before, ?_⟩
    show _ ∈ many.go p before rest
    cases rest with
    | nil => simp [many.go]
    | cons c rest =>
      unfold many.go
      split <;> simp
  | c :: text, before, h => by
    obtain ⟨after, hafter⟩ := mem_many rest text (some c) fun x hx => h x (List.mem_cons_of_mem c hx)
    refine ⟨after, ?_⟩
    show _ ∈ many.go p before (c :: (text ++ rest))
    unfold many.go
    rw [if_pos (h c List.mem_cons_self)]
    exact List.mem_append_left _ (List.mem_map.mpr ⟨_, hafter, rfl⟩)

/-- Some characters of the class, at least one, are a way. -/
theorem mem_many1 {p : Char → Bool} (before : Option Char) (rest : List Char) {text : List Char}
    (hne : text ≠ []) (h : ∀ c ∈ text, p c = true) :
    ∃ after, (text, (⟨after, rest⟩ : Cursor)) ∈ many1 p ⟨before, text ++ rest⟩ := by
  obtain ⟨c, text, rfl⟩ := List.exists_cons_of_ne_nil hne
  obtain ⟨after, hafter⟩ := mem_many rest text (some c) fun x hx => h x (List.mem_cons_of_mem c hx)
  refine ⟨after, mem_bind.mpr ⟨_, mem_one (h c List.mem_cons_self), ?_⟩⟩
  exact mem_bind.mpr ⟨_, hafter, List.mem_singleton_self _⟩

/-- A repetition of a group can stop at once. -/
theorem mem_star_stop (p : Pattern Unit) (cursor : Cursor) : ((), cursor) ∈ star p cursor := by
  unfold star
  cases cursor.rest.length <;> simp [star.go]

/-- A way that takes the whole text makes the pattern match it. -/
theorem fullmatch_of_mem {p : Pattern α} {text : String} {a : α} {after : Option Char}
    (h : (a, (⟨after, []⟩ : Cursor)) ∈ p ⟨none, text.toList⟩) : p.fullmatch text = true :=
  List.any_eq_true.mpr ⟨_, h, rfl⟩

end Ways

/-! ## Where a pattern is found -/

/-- The character before a place, behind a text. -/
def lastOr (before : Option Char) (text : List Char) : Option Char := text.getLast?.or before

/-- Behind nothing the last character is the one before. -/
@[simp] theorem lastOr_nil (before : Option Char) : lastOr before [] = before := rfl

/-- Behind a character the last one is read on from it. -/
@[simp] theorem lastOr_cons (before : Option Char) (c : Char) (text : List Char) :
    lastOr before (c :: text) = lastOr (some c) text := by
  cases text with
  | nil => rfl
  | cons d text => simp [lastOr, List.getLast?_cons]

/-- The places of a text are where it is cut in two. -/
theorem mem_cursors {cursor : Cursor} : ∀ {text : List Char} {before : Option Char},
    cursor ∈ cursors before text ↔
      ∃ front rest, text = front ++ rest ∧ cursor = ⟨lastOr before front, rest⟩
  | [], before => by
    constructor
    · intro h
      exact ⟨[], [], rfl, List.mem_singleton.mp h⟩
    · rintro ⟨front, rest, h, rfl⟩
      obtain ⟨rfl, rfl⟩ := List.append_eq_nil_iff.mp h.symm
      exact List.mem_singleton_self _
  | c :: text, before => by
    rw [cursors, List.mem_cons, mem_cursors]
    constructor
    · rintro (rfl | ⟨front, rest, rfl, rfl⟩)
      · exact ⟨[], c :: text, rfl, rfl⟩
      · exact ⟨c :: front, rest, rfl, by rw [lastOr_cons]⟩
    · rintro ⟨front, rest, h, rfl⟩
      cases front with
      | nil =>
        obtain rfl : c :: text = rest := h
        exact .inl rfl
      | cons d front =>
        obtain ⟨rfl, rfl⟩ := List.cons.inj h
        exact .inr ⟨front, rest, rfl, by rw [lastOr_cons]⟩

/-- **A pattern is found where a text can be cut in two before a match.** -/
theorem found_iff {p : Pattern α} {text : String} : p.found text = true ↔
    ∃ front rest, text.toList = front ++ rest ∧ p ⟨lastOr none front, rest⟩ ≠ [] := by
  have hfound : p.found text = true ↔ ∃ cursor ∈ cursors none text.toList, p cursor ≠ [] := by
    rw [found, search, List.isSome_head?]
    constructor
    · intro h
      by_contra hall
      push Not at hall
      exact h (List.flatMap_eq_nil_iff.mpr hall)
    · rintro ⟨cursor, hcursor, hp⟩ h
      exact hp (List.flatMap_eq_nil_iff.mp h cursor hcursor)
  rw [hfound]
  constructor
  · rintro ⟨cursor, hcursor, hp⟩
    obtain ⟨front, rest, htext, rfl⟩ := mem_cursors.mp hcursor
    exact ⟨front, rest, htext, hp⟩
  · rintro ⟨front, rest, htext, hp⟩
    exact ⟨_, mem_cursors.mpr ⟨front, rest, htext, rfl⟩, hp⟩

/-- A literal text matches where it stands. -/
theorem chars_append (text rest : List Char) : ∀ before : Option Char,
    chars text ⟨before, text ++ rest⟩ = [((), ⟨lastOr before text, rest⟩)] := by
  induction text with
  | nil => exact fun _ => rfl
  | cons c text ih =>
    intro before
    show (one (· == c) ⟨before, c :: (text ++ rest)⟩).flatMap (fun way => chars text way.2) = _
    rw [one, if_pos (beq_self_eq_true c), List.flatMap_singleton, ih, lastOr_cons]

/-- It matches nowhere else. -/
theorem prefix_of_chars {text : List Char} : ∀ {cursor : Cursor}, chars text cursor ≠ [] →
    ∃ rest, cursor.rest = text ++ rest := by
  induction text with
  | nil => exact fun _ => ⟨_, rfl⟩
  | cons c text ih =>
    rintro ⟨before, cs⟩ h
    obtain ⟨way, hway⟩ := List.exists_mem_of_ne_nil _ h
    obtain ⟨first, hfirst, hrest⟩ := mem_bind.mp hway
    cases cs with
    | nil => cases hfirst
    | cons d cs =>
      rw [one] at hfirst
      split at hfirst
      · rename_i hd
        obtain rfl := List.mem_singleton.mp hfirst
        obtain ⟨rest, hrest⟩ := ih (List.ne_nil_of_mem hrest)
        obtain rfl : cs = text ++ rest := hrest
        exact ⟨rest, by rw [eq_of_beq hd]; rfl⟩
      · cases hfirst

/-- `\bword\b` -/
def wholeWord (chars : CharClass) (word : String) : Pattern Unit := do
  boundary chars
  lit word
  boundary chars

/-- A place with a word character on exactly one side. -/
def AtBoundary (chars : CharClass) (before : Option Char) (rest : List Char) : Prop :=
  before.any chars.word ≠ rest.head?.any chars.word

/-- The only way of a word boundary takes nothing, and there is one exactly at a boundary. -/
theorem mem_boundary {chars : CharClass} {cursor : Cursor} {way : Unit × Cursor} :
    way ∈ boundary chars cursor ↔ way = ((), cursor) ∧ AtBoundary chars cursor.before cursor.rest := by
  unfold boundary AtBoundary
  split <;> simp_all

/-! ## Patterns in a part of a text -/

/-- **What matches in a part of a text matches there in the text**, if no word goes on around the part. -/
def Extends (chars : CharClass) (p : Pattern α) : Prop :=
  ∀ ⦃before before' : Option Char⦄ ⦃rest : List Char⦄ ⦃way : α × Cursor⦄ (back : List Char),
    before.any chars.word = before'.any chars.word → back.head?.any chars.word = false →
      way ∈ p ⟨before, rest⟩ → ∃ after, way.2.before.any chars.word = after.any chars.word ∧
        (way.1, (⟨after, way.2.rest ++ back⟩ : Cursor)) ∈ p ⟨before', rest ++ back⟩

section Extends

variable {chars : CharClass} {β : Type}

/-- What follows at the end matters to no word if it does not begin with a character of one. -/
theorem head?_append_any {back : List Char} (hback : back.head?.any chars.word = false) (rest : List Char) :
    (rest ++ back).head?.any chars.word = rest.head?.any chars.word := by
  cases rest with
  | nil => exact hback
  | cons c rest => rfl

/-- What stands in front matters to no word if it does not end in a character of one. -/
theorem getLast?_append_any {front : List Char} (hfront : front.getLast?.any chars.word = false)
    (rest : List Char) : (front ++ rest).getLast?.any chars.word = rest.getLast?.any chars.word := by
  cases rest using List.reverseRecOn with
  | nil => rw [List.append_nil, hfront]; rfl
  | append_singleton rest c => simp [List.getLast?_append]

/-- The empty pattern does not notice what is around the text. -/
theorem Extends.pure (a : α) : Extends chars (pure a : Pattern α) := by
  intro before before' rest way back hbefore _ hway
  obtain rfl : way = (a, ⟨before, rest⟩) := List.mem_singleton.mp hway
  exact ⟨before', hbefore, List.mem_singleton_self _⟩

/-- Patterns that do not notice make up patterns that do not. -/
theorem Extends.bind {p : Pattern α} {f : α → Pattern β} (hp : Extends chars p)
    (hf : ∀ a, Extends chars (f a)) : Extends chars (p >>= f) := by
  intro before before' rest way back hbefore hback hway
  obtain ⟨first, hfirst, hway⟩ := mem_bind.mp hway
  obtain ⟨middle, hmiddle, hfirst⟩ := hp back hbefore hback hfirst
  obtain ⟨after, hafter, hway⟩ := hf first.1 back hmiddle hback hway
  exact ⟨after, hafter, mem_bind.mpr ⟨_, hfirst, hway⟩⟩

/-- Nor does a choice between such patterns. -/
theorem Extends.orElse {p q : Pattern α} (hp : Extends chars p) (hq : Extends chars q) :
    Extends chars (orElse p q) := by
  intro before before' rest way back hbefore hback hway
  rcases List.mem_append.mp hway with hway | hway
  · obtain ⟨after, hafter, hway⟩ := hp back hbefore hback hway
    exact ⟨after, hafter, List.mem_append_left _ hway⟩
  · obtain ⟨after, hafter, hway⟩ := hq back hbefore hback hway
    exact ⟨after, hafter, List.mem_append_right _ hway⟩

/-- Nor does one character. -/
theorem Extends.one (f : Char → Bool) : Extends chars (one f) := by
  intro before before' rest way back _ _ hway
  cases rest with
  | nil => cases hway
  | cons c rest =>
    rw [Pattern.one] at hway
    split at hway
    · rename_i hc
      obtain rfl := List.mem_singleton.mp hway
      exact ⟨some c, rfl, mem_one hc⟩
    · cases hway

/-- Nor does a row of characters. -/
theorem Extends.text : ∀ text : List Char, Extends chars (Pattern.chars text)
  | [] => .pure ()
  | _ :: text => .bind (.one _) fun _ => .text text

/-- Nor does a fixed text. -/
theorem Extends.lit (text : String) : Extends chars (lit text) := .text text.toList

/-- Characters of a class may go on into what follows, and then there are more ways, not fewer. -/
theorem Extends.many (f : Char → Bool) : Extends chars (many f) := by
  intro before before' rest way back hbefore _ hway
  have hstop : ∀ (b : Option Char) (l : List Char), ([], (⟨b, l⟩ : Cursor)) ∈ many.go f b l := by
    intro b l
    unfold many.go
    split
    · exact List.mem_singleton_self _
    · split <;> simp
  show ∃ after, _ ∧ _ ∈ many.go f before' (rest ++ back)
  have hway : way ∈ many.go f before rest := hway
  induction rest generalizing before before' way with
  | nil =>
    obtain rfl : way = ([], ⟨before, []⟩) := List.mem_singleton.mp hway
    exact ⟨before', hbefore, hstop before' back⟩
  | cons c rest ih =>
    rw [many.go] at hway
    rw [List.cons_append, many.go]
    split at hway
    · rename_i hc
      rw [if_pos hc]
      rcases List.mem_append.mp hway with hway | hway
      · obtain ⟨inner, hinner, rfl⟩ := List.mem_map.mp hway
        obtain ⟨after, hafter, hmem⟩ := ih rfl hinner hinner
        exact ⟨after, hafter, List.mem_append_left _ (List.mem_map.mpr ⟨_, hmem, rfl⟩)⟩
      · obtain rfl := List.mem_singleton.mp hway
        exact ⟨before', hbefore, List.mem_append_right _ (List.mem_singleton_self _)⟩
    · rename_i hc
      rw [if_neg hc]
      obtain rfl := List.mem_singleton.mp hway
      exact ⟨before', hbefore, List.mem_singleton_self _⟩

/-- The same for at least one. -/
theorem Extends.many1 (f : Char → Bool) : Extends chars (many1 f) :=
  .bind (.one f) fun _ => .bind (.many f) fun _ => .pure _

/-- A word boundary does not notice, since no word goes on around the text. -/
theorem Extends.boundary : Extends chars (boundary chars) := by
  intro before before' rest way back hbefore hback hway
  obtain ⟨rfl, hat⟩ := mem_boundary.mp hway
  refine ⟨before', hbefore, mem_boundary.mpr ⟨rfl, ?_⟩⟩
  rw [AtBoundary, ← hbefore, head?_append_any hback]
  exact hat

/-- **What is found in a part of a text is found in the text.** -/
theorem Extends.found {p : Pattern α} (hp : Extends chars p) {front part back : List Char}
    (hfront : front.getLast?.any chars.word = false) (hback : back.head?.any chars.word = false)
    (h : p.found (String.ofList part) = true) : p.found (String.ofList (front ++ (part ++ back))) = true := by
  obtain ⟨before, rest, hpart, hmatch⟩ := found_iff.mp h
  rw [String.toList_ofList] at hpart
  obtain ⟨way, hway⟩ := List.exists_mem_of_ne_nil _ hmatch
  have hlast : ∀ text : List Char, lastOr none text = text.getLast? := fun text => Option.or_none
  have hbefore : (lastOr none before).any chars.word = (lastOr none (front ++ before)).any chars.word := by
    rw [hlast, hlast, getLast?_append_any hfront]
  obtain ⟨after, -, hmem⟩ := hp back hbefore hback hway
  refine found_iff.mpr ⟨front ++ before, rest ++ back, ?_, List.ne_nil_of_mem hmem⟩
  rw [String.toList_ofList, hpart, List.append_assoc, List.append_assoc]

/-- A whole word is found inside a larger text as it was. -/
theorem Extends.wholeWord (word : String) : Extends chars (wholeWord chars word) :=
  .bind .boundary fun _ => .bind (.lit word) fun _ => .boundary

end Extends

end Pattern

/-- `needle in text` -/
def contains (text needle : String) : Bool := decide (needle.toList <:+: text.toList)

/-- `text.strip()` -/
def strip (chars : CharClass) (text : String) : String :=
  String.ofList ((text.toList.dropWhile chars.space).reverse.dropWhile chars.space).reverse

end Assure.Library
