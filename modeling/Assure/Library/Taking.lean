import Assure.Library.Regex

/-!
# What a pattern takes

The other half of `Ways`: a way of a literal text or of a repetition has taken that text (`of_mem_chars`,
`of_mem_many`). `Takes` is a match that does not depend on the character before, so that matches of the parts of
a pattern come to a match of the whole.
-/

namespace Assure.Library.Pattern

variable {α β : Type}

/-- A way of one character takes the next one, which is of the class. -/
theorem of_mem_one {p : Char → Bool} {cursor : Cursor} {way : Char × Cursor} (h : way ∈ one p cursor) :
    cursor.rest = way.1 :: way.2.rest ∧ p way.1 = true := by
  obtain ⟨before, rest⟩ := cursor
  cases rest with
  | nil => cases h
  | cons c rest =>
    rw [one] at h
    split at h
    · rename_i hc
      obtain rfl := List.mem_singleton.mp h
      exact ⟨rfl, hc⟩
    · cases h

/-- A literal text has been taken. -/
theorem of_mem_chars {text : List Char} {cursor : Cursor} {way : Unit × Cursor} (h : way ∈ chars text cursor) :
    cursor.rest = text ++ way.2.rest := by
  obtain ⟨rest, hrest⟩ := prefix_of_chars (List.ne_nil_of_mem h)
  obtain ⟨before, cs⟩ := cursor
  obtain rfl : cs = text ++ rest := hrest
  rw [chars_append] at h
  obtain rfl := List.mem_singleton.mp h
  rfl

/-- **A repetition** has taken characters of its class. -/
theorem of_mem_many {p : Char → Bool} {cursor : Cursor} {way : List Char × Cursor} (h : way ∈ many p cursor) :
    cursor.rest = way.1 ++ way.2.rest ∧ ∀ c ∈ way.1, p c = true := by
  obtain ⟨before, rest⟩ := cursor
  have hgo : ∀ (rest : List Char) (before : Option Char) (way : List Char × Cursor), way ∈ many.go p before rest →
      rest = way.1 ++ way.2.rest ∧ ∀ c ∈ way.1, p c = true := by
    intro rest
    induction rest with
    | nil =>
      intro before way h
      obtain rfl := List.mem_singleton.mp h
      exact ⟨rfl, fun c hc => absurd hc List.not_mem_nil⟩
    | cons c rest ih =>
      intro before way h
      rw [many.go] at h
      split at h
      · rename_i hc
        rcases List.mem_append.mp h with h | h
        · obtain ⟨way', hway', rfl⟩ := List.mem_map.mp h
          obtain ⟨hrest, hall⟩ := ih (some c) way' hway'
          exact ⟨congrArg (c :: ·) hrest, List.forall_mem_cons.mpr ⟨hc, hall⟩⟩
        · obtain rfl := List.mem_singleton.mp h
          exact ⟨rfl, fun d hd => absurd hd List.not_mem_nil⟩
      · obtain rfl := List.mem_singleton.mp h
        exact ⟨rfl, fun d hd => absurd hd List.not_mem_nil⟩
  exact hgo rest before way h

/-- The character before the place where a repetition ends. -/
theorem before_of_mem_many {p : Char → Bool} {cursor : Cursor} {way : List Char × Cursor}
    (h : way ∈ many p cursor) : way.2.before = lastOr cursor.before way.1 := by
  obtain ⟨before, rest⟩ := cursor
  have h : way ∈ many.go p before rest := h
  show way.2.before = lastOr before way.1
  induction rest generalizing before way with
  | nil =>
    obtain rfl := List.mem_singleton.mp h
    rfl
  | cons c rest ih =>
    rw [many.go] at h
    split at h
    · rcases List.mem_append.mp h with h | h
      · obtain ⟨way', hway', rfl⟩ := List.mem_map.mp h
        rw [lastOr_cons]
        exact ih (some c) hway' hway'
      · obtain rfl := List.mem_singleton.mp h
        rfl
    · obtain rfl := List.mem_singleton.mp h
      rfl

/-- **A repetition takes what it can at first.** -/
theorem many_greedy {p : Char → Bool} {rest : List Char} (hrest : rest.head?.any p = false) :
    ∀ (text : List Char) (before : Option Char), (∀ c ∈ text, p c = true) →
      (many p ⟨before, text ++ rest⟩).head? = some (text, ⟨lastOr before text, rest⟩)
  | [], before, _ => by
    show (many.go p before rest).head? = _
    cases rest with
    | nil => rfl
    | cons c rest =>
      rw [List.head?_cons, Option.any_some] at hrest
      rw [many.go, if_neg (by rw [hrest]; exact Bool.false_ne_true)]
      rfl
  | c :: text, before, h => by
    have ih := many_greedy hrest text (some c) fun d hd => h d (List.mem_cons_of_mem c hd)
    have ih : (many.go p (some c) (text ++ rest)).head? = _ := ih
    show (many.go p before (c :: (text ++ rest))).head? = _
    rw [many.go, if_pos (h c List.mem_cons_self), List.head?_append, List.head?_map, ih, lastOr_cons]
    rfl

/-- A way of at least one character takes some characters of the class. -/
theorem of_mem_many1 {p : Char → Bool} {cursor : Cursor} {way : List Char × Cursor} (h : way ∈ many1 p cursor) :
    cursor.rest = way.1 ++ way.2.rest ∧ (∀ c ∈ way.1, p c = true) ∧ way.1 ≠ [] := by
  obtain ⟨first, hfirst, h⟩ := mem_bind.mp h
  obtain ⟨more, hmore, h⟩ := mem_bind.mp h
  obtain ⟨hrest, hc⟩ := of_mem_one hfirst
  obtain ⟨hrest', hall⟩ := of_mem_many hmore
  obtain rfl : way = (first.1 :: more.1, more.2) := List.mem_singleton.mp h
  refine ⟨?_, List.forall_mem_cons.mpr ⟨hc, hall⟩, List.cons_ne_nil _ _⟩
  rw [hrest, hrest']
  rfl

/-- Being lazy changes the order of the ways and not which ones there are. -/
theorem mem_lazily {p : Pattern α} {cursor : Cursor} {way : α × Cursor} : way ∈ lazily p cursor ↔ way ∈ p cursor :=
  List.mem_reverse

/-- A choice has the ways of both patterns. -/
theorem mem_orElse {p q : Pattern α} {cursor : Cursor} {way : α × Cursor} :
    way ∈ orElse p q cursor ↔ way ∈ p cursor ∨ way ∈ q cursor :=
  List.mem_append

/-! ## Matches that can be put together -/

/-- **The pattern can take the text** before `rest`, whatever stands before it. -/
def Takes (p : Pattern α) (text : List Char) (a : α) (rest : List Char) : Prop :=
  ∀ before, ∃ after, (a, (⟨after, rest⟩ : Cursor)) ∈ p ⟨before, text ++ rest⟩

/-- Patterns in a row take texts in a row. -/
theorem Takes.bind {p : Pattern α} {f : α → Pattern β} {text text' rest : List Char} {a : α} {b : β}
    (hp : Takes p text a (text' ++ rest)) (hf : Takes (f a) text' b rest) :
    Takes (p >>= f) (text ++ text') b rest := by
  intro before
  obtain ⟨middle, hmiddle⟩ := hp before
  obtain ⟨after, hafter⟩ := hf middle
  rw [← List.append_assoc] at hmiddle
  exact ⟨after, mem_bind.mpr ⟨_, hmiddle, hafter⟩⟩

/-- The empty pattern takes nothing. -/
theorem takes_pure (a : α) (rest : List Char) : Takes (pure a : Pattern α) [] a rest :=
  fun before => ⟨before, List.mem_singleton_self _⟩

/-- A fixed text takes itself. -/
theorem takes_lit (text : String) (rest : List Char) : Takes (lit text) text.toList () rest :=
  fun before => mem_chars rest text.toList before

/-- Characters of a class take a text of the class. -/
theorem takes_many {p : Char → Bool} {text : List Char} (h : ∀ c ∈ text, p c = true) (rest : List Char) :
    Takes (many p) text text rest :=
  fun before => mem_many rest text before h

/-- So do at least one of them, if the text is not empty. -/
theorem takes_many1 {p : Char → Bool} {text : List Char} (hne : text ≠ []) (h : ∀ c ∈ text, p c = true)
    (rest : List Char) : Takes (many1 p) text text rest :=
  fun before => mem_many1 before rest hne h

/-- A lazy pattern takes what the pattern takes. -/
theorem Takes.lazily {p : Pattern α} {text rest : List Char} {a : α} (h : Takes p text a rest) :
    Takes (lazily p) text a rest := by
  intro before
  obtain ⟨after, hafter⟩ := h before
  exact ⟨after, mem_lazily.mpr hafter⟩

/-- A choice takes what its first pattern takes. -/
theorem Takes.left {p : Pattern α} {text rest : List Char} {a : α} (h : Takes p text a rest) (q : Pattern α) :
    Takes (orElse p q) text a rest := by
  intro before
  obtain ⟨after, hafter⟩ := h before
  exact ⟨after, mem_orElse.mpr (.inl hafter)⟩

/-- A choice takes what its second pattern takes. -/
theorem Takes.right {q : Pattern α} {text rest : List Char} {a : α} (h : Takes q text a rest) (p : Pattern α) :
    Takes (orElse p q) text a rest := by
  intro before
  obtain ⟨after, hafter⟩ := h before
  exact ⟨after, mem_orElse.mpr (.inr hafter)⟩

/-! ## The first way -/

/-- `re.match`: the first way from the beginning of a text. -/
def first? (p : Pattern α) (text : List Char) : Option α := (p ⟨none, text⟩).head?.map Prod.fst

/-- What is found first is one of the ways. -/
theorem of_first? {p : Pattern α} {text : List Char} {a : α} (h : p.first? text = some a) :
    ∃ cursor, (a, cursor) ∈ p ⟨none, text⟩ := by
  obtain ⟨way, hway, rfl⟩ := Option.map_eq_some_iff.mp h
  exact ⟨way.2, List.mem_of_head? hway⟩

/-- Where all ways give one value, the first does. -/
theorem first?_eq {p : Pattern α} {text : List Char} {a : α} (htakes : Takes p text a [])
    (hall : ∀ way ∈ p ⟨none, text⟩, way.1 = a) : p.first? text = some a := by
  obtain ⟨after, hafter⟩ := htakes none
  rw [List.append_nil] at hafter
  cases hways : p ⟨none, text⟩ with
  | nil => rw [hways] at hafter; cases hafter
  | cons way ways =>
    have hway : way ∈ p ⟨none, text⟩ := hways ▸ List.mem_cons_self
    rw [first?, hways, List.head?_cons, Option.map_some, hall way hway]

end Assure.Library.Pattern
