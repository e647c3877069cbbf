import Assure.Library.FindAll

/-!
# Patterns in front of a tail

A tail is put behind a text. A pattern may step into it, but no further than some dead ends. `Before` says of a pattern
that in front of the tail it has the ways it has without, apart from ways to dead ends, and that it does not get away from
these; `Stops`, that it has no ways to dead ends and none from them. What is put together of patterns of the first kind
and ends in one of the second finds in front of the tail what it finds without (`Before.bind_stops`), and so does the
search for all its matches (`findAll_tail`).
-/

namespace Assure.Library.Pattern

variable {α β : Type} {tail : List Char} {dead : List Char → Bool}

/-- A way with a tail behind it. -/
def onto (tail : List Char) (way : α × Cursor) : α × Cursor := (way.1, ⟨way.2.before, way.2.rest ++ tail⟩)

/-- The ways in front of a tail are those without it. -/
def KeepsTail (tail : List Char) (p : Pattern α) : Prop :=
  ∀ before rest, p ⟨before, rest ++ tail⟩ = (p ⟨before, rest⟩).map (onto tail)

/-- **The ways in front of a tail are those without it and ways to dead ends.** -/
structure Before (tail : List Char) (dead : List Char → Bool) (p : Pattern α) : Prop where
  kept : ∀ before rest, (p ⟨before, rest ++ tail⟩).filter (fun way => !dead way.2.rest) =
    (p ⟨before, rest⟩).map (onto tail)
  stays : ∀ cursor : Cursor, dead cursor.rest = true → ∀ way ∈ p cursor, dead way.2.rest = true

/-- **The ways in front of a tail are those without it, and there are none from dead ends.** -/
structure Stops (tail : List Char) (dead : List Char → Bool) (p : Pattern α) : Prop where
  keeps : KeepsTail tail p
  stops : ∀ cursor : Cursor, dead cursor.rest = true → p cursor = []

/-- A place in front of the tail is no dead end. -/
def Beyond (tail : List Char) (dead : List Char → Bool) : Prop := ∀ rest, dead (rest ++ tail) = false

/-- Two patterns in a row, read way by way. -/
theorem bind_apply (p : Pattern α) (f : α → Pattern β) (cursor : Cursor) :
    (p >>= f) cursor = (p cursor).flatMap fun way => f way.1 way.2 := rfl

/-- The empty pattern has its one way in front of every tail. -/
theorem KeepsTail.pure (a : α) : KeepsTail tail (pure a : Pattern α) := fun _ _ => rfl

/-- Patterns in a row keep their ways if each does. -/
theorem KeepsTail.bind {p : Pattern α} {f : α → Pattern β} (hp : KeepsTail tail p) (hf : ∀ a, KeepsTail tail (f a)) :
    KeepsTail tail (p >>= f) := by
  intro before rest
  rw [bind_apply, bind_apply, hp, List.flatMap_map, List.map_flatMap]
  exact List.flatMap_congr fun way _ => hf way.1 way.2.before way.2.rest

/-- A pattern that keeps its ways, and gets from dead ends to dead ends only, keeps the ways that do
not end in one. -/
theorem KeepsTail.before {p : Pattern α} (hdead : Beyond tail dead) (hp : KeepsTail tail p)
    (hstays : ∀ cursor : Cursor, dead cursor.rest = true → ∀ way ∈ p cursor, dead way.2.rest = true) :
    Before tail dead p where
  kept before rest := by
    rw [hp]
    refine List.filter_eq_self.mpr fun way hway => ?_
    obtain ⟨way, -, rfl⟩ := List.mem_map.mp hway
    show (!dead (way.2.rest ++ tail)) = true
    rw [hdead]
    rfl
  stays := hstays

/-- A pattern with no way from a dead end keeps its ways as well. -/
theorem Stops.before {p : Pattern α} (hdead : Beyond tail dead) (hp : Stops tail dead p) : Before tail dead p :=
  hp.keeps.before hdead fun cursor hcursor way hway => by
    rw [hp.stops cursor hcursor] at hway
    cases hway

/-- Of the ways through two patterns, those to dead ends are left out. -/
theorem filter_bind {p : Pattern α} {f : α → Pattern β} (hf : ∀ a, Before tail dead (f a)) (cursor : Cursor) :
    ((p >>= f) cursor).filter (fun way => !dead way.2.rest) =
      ((p cursor).filter fun way => !dead way.2.rest).flatMap
        fun way => (f way.1 way.2).filter fun way => !dead way.2.rest := by
  rw [bind_apply]
  induction p cursor with
  | nil => rfl
  | cons way ways ih =>
    rw [List.flatMap_cons, List.filter_append, ih, List.filter_cons]
    cases hway : dead way.2.rest with
    | true =>
      have hnone : (f way.1 way.2).filter (fun way => !dead way.2.rest) = [] := by
        refine List.filter_eq_nil_iff.mpr fun next hnext => ?_
        rw [(hf way.1).stays way.2 hway next hnext]
        exact Bool.false_ne_true
      rw [hnone]
      rfl
    | false => rfl

/-- Patterns in a row keep their ways, apart from dead ends, if each of them does. -/
theorem Before.bind {p : Pattern α} {f : α → Pattern β} (hp : Before tail dead p) (hf : ∀ a, Before tail dead (f a)) :
    Before tail dead (p >>= f) where
  kept before rest := by
    rw [filter_bind hf, hp.kept, bind_apply, List.flatMap_map, List.map_flatMap]
    exact List.flatMap_congr fun way _ => (hf way.1).kept way.2.before way.2.rest
  stays cursor hcursor way hway := by
    obtain ⟨first, hfirst, hway⟩ := mem_bind.mp hway
    exact (hf first.1).stays first.2 (hp.stays cursor hcursor first hfirst) way hway

/-- **What ends in a pattern that stops has the ways it has without the tail.** -/
theorem Before.bind_stops {p : Pattern α} {f : α → Pattern β} (hp : Before tail dead p)
    (hf : ∀ a, Stops tail dead (f a)) : Stops tail dead (p >>= f) where
  keeps before rest := by
    have hways : (p >>= f) ⟨before, rest ++ tail⟩ =
        ((p ⟨before, rest ++ tail⟩).filter fun way => !dead way.2.rest).flatMap fun way => f way.1 way.2 := by
      rw [bind_apply]
      induction p ⟨before, rest ++ tail⟩ with
      | nil => rfl
      | cons way ways ih =>
        rw [List.flatMap_cons, ih, List.filter_cons]
        cases hway : dead way.2.rest with
        | true =>
          rw [(hf way.1).stops way.2 hway]
          rfl
        | false => rfl
    rw [hways, hp.kept, bind_apply, List.flatMap_map, List.map_flatMap]
    exact List.flatMap_congr fun way _ => (hf way.1).keeps way.2.before way.2.rest
  stops cursor hcursor := by
    rw [bind_apply]
    refine List.flatMap_eq_nil_iff.mpr fun way hway => ?_
    exact (hf way.1).stops way.2 (hp.stays cursor hcursor way hway)

/-- A pattern with no way from a dead end, followed by one that keeps its ways, has none either. -/
theorem Stops.bind {p : Pattern α} {f : α → Pattern β} (hp : Stops tail dead p) (hf : ∀ a, KeepsTail tail (f a)) :
    Stops tail dead (p >>= f) where
  keeps := hp.keeps.bind hf
  stops cursor hcursor := by rw [bind_apply, hp.stops cursor hcursor]; rfl

/-- A choice has no way from a dead end if neither pattern has. -/
theorem Stops.orElse {p q : Pattern α} (hp : Stops tail dead p) (hq : Stops tail dead q) :
    Stops tail dead (orElse p q) where
  keeps before rest := by
    rw [Pattern.orElse, Pattern.orElse, hp.keeps, hq.keeps, List.map_append]
  stops cursor hcursor := by rw [Pattern.orElse, hp.stops cursor hcursor, hq.stops cursor hcursor]; rfl

/-- A character that neither the tail nor a dead end begins with. -/
theorem Stops.one {f : Char → Bool} (htail : tail.head?.any f = false)
    (hdead : ∀ rest, dead rest = true → rest.head?.any f = false) : Stops tail dead (one f) := by
  have hnone : ∀ cursor : Cursor, cursor.rest.head?.any f = false → Pattern.one f cursor = [] := by
    rintro ⟨before, rest⟩ h
    cases rest with
    | nil => rfl
    | cons c rest =>
      have hc : f c = false := h
      rw [Pattern.one, hc]
      rfl
  refine ⟨fun before rest => ?_, fun cursor hcursor => hnone cursor (hdead _ hcursor)⟩
  cases rest with
  | nil => rw [List.nil_append, hnone _ htail]; rfl
  | cons c rest =>
    rw [List.cons_append, Pattern.one, Pattern.one]
    split <;> rfl

/-- A text that begins so. -/
theorem Stops.chars {c : Char} {text : List Char} (htext : ∀ d ∈ c :: text, tail.head? ≠ some d)
    (hdead : ∀ rest, dead rest = true → rest.head? ≠ some c) : Stops tail dead (Pattern.chars (c :: text)) := by
  have hkeeps : ∀ text : List Char, (∀ d ∈ text, tail.head? ≠ some d) → KeepsTail tail (Pattern.chars text) := by
    intro text
    induction text with
    | nil => exact fun _ => .pure ()
    | cons d text ih =>
      intro htext
      have hone : Stops tail (fun _ => false) (Pattern.one (· == d)) := by
        refine .one ?_ (fun _ h => by cases h)
        have hd := htext d List.mem_cons_self
        cases htail : tail.head? with
        | none => rfl
        | some e => exact beq_false_of_ne fun h => hd (h ▸ htail)
      exact hone.keeps.bind fun _ => ih fun e he => htext e (List.mem_cons_of_mem d he)
  refine ⟨hkeeps _ htext, fun cursor hcursor => ?_⟩
  by_contra hne
  obtain ⟨rest, hrest⟩ := prefix_of_chars hne
  exact hdead _ hcursor (by rw [hrest]; rfl)

/-! ## Repetitions -/

/-- A class that the tail does not begin with. -/
theorem KeepsTail.many {f : Char → Bool} (htail : tail.head?.any f = false) : KeepsTail tail (many f) := by
  intro before rest
  show many.go f before (rest ++ tail) = (many.go f before rest).map (onto tail)
  induction rest generalizing before with
  | nil =>
    rw [List.nil_append]
    cases tail with
    | nil => rfl
    | cons c tail =>
      have hc : f c = false := htail
      show many.go f before (c :: tail) = [([], ⟨before, c :: tail⟩)]
      rw [many.go, if_neg (by rw [hc]; exact Bool.false_ne_true)]
  | cons c rest ih =>
    rw [List.cons_append, many.go, many.go]
    split
    · rw [ih, List.map_append, List.map_map, List.map_map]
      rfl
    · rfl

/-- A class that leads to dead ends in the tail. -/
theorem Before.many {f : Char → Bool} (hdead : Beyond tail dead)
    (htail : ∀ before, (many.go f before tail).filter (fun way => !dead way.2.rest) = [([], ⟨before, tail⟩)])
    (hstays : ∀ cursor : Cursor, dead cursor.rest = true → ∀ way ∈ many f cursor, dead way.2.rest = true) :
    Before tail dead (many f) where
  kept before rest := by
    show (many.go f before (rest ++ tail)).filter _ = (many.go f before rest).map (onto tail)
    induction rest generalizing before with
    | nil => exact htail before
    | cons c rest ih =>
      rw [List.cons_append, many.go, many.go]
      have hhere : (!dead ((c :: rest) ++ tail)) = true := by rw [hdead]; rfl
      split
      · have hmap : ∀ ways : List (List Char × Cursor),
            (ways.map fun way => (c :: way.1, way.2)).filter (fun way => !dead way.2.rest) =
              (ways.filter fun way => !dead way.2.rest).map fun way => (c :: way.1, way.2) := fun ways =>
                List.filter_map
        rw [List.filter_append, hmap, ih, List.map_append, List.map_map, List.map_map,
          List.filter_cons_of_pos (by exact hhere)]
        rfl
      · rw [List.filter_cons_of_pos (by exact hhere)]
        rfl
  stays := hstays

/-- The passes of a repetition beyond the length of the text are not made. -/
theorem star_go_eq (p : Pattern Unit) : ∀ (n : Nat) (cursor : Cursor), cursor.rest.length ≤ n →
    star.go p n cursor = star.go p cursor.rest.length cursor := by
  intro n
  induction n using Nat.strong_induction_on with
  | _ n ih =>
    intro cursor hn
    rcases Nat.eq_zero_or_pos n with rfl | hpos
    · rw [Nat.le_zero.mp hn]
    · obtain ⟨n, rfl⟩ := Nat.exists_eq_succ_of_ne_zero hpos.ne'
      cases hlength : cursor.rest.length with
      | zero =>
        rw [star.go, star.go]
        have hnone : (p cursor).filter (fun way => decide (way.2.rest.length < cursor.rest.length)) = [] :=
          List.filter_eq_nil_iff.mpr fun _ _ h => absurd (hlength ▸ of_decide_eq_true h) (Nat.not_lt_zero _)
        rw [hnone]
        rfl
      | succ k =>
        rw [star.go, star.go, hlength]
        refine congrArg (· ++ [((), cursor)]) (List.flatMap_congr fun way hway => ?_)
        have hshort : way.2.rest.length < k + 1 := of_decide_eq_true (List.mem_filter.mp hway).2
        rw [ih n (Nat.lt_succ_self n) way.2 (by omega), ih k (by omega) way.2 (by omega)]

/-- Repetitions keep their ways if the pattern does: a pass that takes nothing ends them with a tail
and without. -/
theorem KeepsTail.star {p : Pattern Unit} (hp : KeepsTail tail p) : KeepsTail tail (star p) := by
  have hgo : ∀ n before rest, star.go p n ⟨before, rest ++ tail⟩ = (star.go p n ⟨before, rest⟩).map (onto tail) := by
    intro n
    induction n with
    | zero => exact fun _ _ => rfl
    | succ n ih =>
      intro before rest
      rw [star.go, star.go, hp, List.map_append, List.map_flatMap, List.filter_map, List.flatMap_map]
      have hfilter : (p ⟨before, rest⟩).filter ((fun way : Unit × Cursor =>
          decide (way.2.rest.length < (rest ++ tail).length)) ∘ onto tail) =
            (p ⟨before, rest⟩).filter fun way => decide (way.2.rest.length < rest.length) := by
        refine List.filter_congr fun way _ => decide_eq_decide.mpr ?_
        show (way.2.rest ++ tail).length < (rest ++ tail).length ↔ _
        rw [List.length_append, List.length_append]
        omega
      rw [hfilter]
      refine congrArg (· ++ [((), (⟨before, rest ++ tail⟩ : Cursor))]) (List.flatMap_congr fun way _ => ?_)
      exact ih way.2.before way.2.rest
  intro before rest
  show star.go p (rest ++ tail).length ⟨before, rest ++ tail⟩ = (star.go p rest.length ⟨before, rest⟩).map (onto tail)
  rw [hgo, star_go_eq p (rest ++ tail).length ⟨before, rest⟩ (by rw [List.length_append]; exact Nat.le_add_right _ _)]

/-- A repetition of what stops. -/
theorem Stops.star {p : Pattern Unit} (hdead : Beyond tail dead) (hp : Stops tail dead p) :
    Before tail dead (star p) := by
  refine hp.keeps.star.before hdead fun cursor hcursor way hway => ?_
  have hstar : Pattern.star p cursor = [((), cursor)] := by
    unfold Pattern.star
    cases cursor.rest.length with
    | zero => rfl
    | succ n =>
      rw [star.go, hp.stops cursor hcursor]
      rfl
  rw [hstar] at hway
  obtain rfl := List.mem_singleton.mp hway
  exact hcursor

/-! ## What a way leaves -/

/-- Every way leaves a suffix of what it was given. -/
def Advances (p : Pattern α) : Prop := ∀ cursor, ∀ way ∈ p cursor, way.2.rest <:+ cursor.rest

/-- The empty pattern stays where it is. -/
theorem Advances.pure (a : α) : Advances (pure a : Pattern α) := by
  intro cursor way hway
  rw [List.mem_singleton.mp hway]

/-- Patterns in a row go on, or stay, as each of them does. -/
theorem Advances.bind {p : Pattern α} {f : α → Pattern β} (hp : Advances p) (hf : ∀ a, Advances (f a)) :
    Advances (p >>= f) := by
  intro cursor way hway
  obtain ⟨first, hfirst, hway⟩ := mem_bind.mp hway
  exact (hf first.1 first.2 way hway).trans (hp cursor first hfirst)

/-- A choice goes on as the pattern that is taken. -/
theorem Advances.orElse {p q : Pattern α} (hp : Advances p) (hq : Advances q) : Advances (orElse p q) := by
  intro cursor way hway
  rcases List.mem_append.mp hway with hway | hway
  · exact hp cursor way hway
  · exact hq cursor way hway

/-- One character goes on by one. -/
theorem Advances.one (f : Char → Bool) : Advances (one f) := by
  rintro ⟨before, rest⟩ way hway
  cases rest with
  | nil => cases hway
  | cons c rest =>
    rw [Pattern.one] at hway
    split at hway
    · rw [List.mem_singleton.mp hway]
      exact List.suffix_cons c rest
    · cases hway

/-- A row of characters goes on by its length. -/
theorem Advances.chars : ∀ text : List Char, Advances (Pattern.chars text)
  | [] => .pure ()
  | _ :: text => .bind (.one _) fun _ => .chars text

/-- Characters of a class go on or stay. -/
theorem Advances.many (f : Char → Bool) : Advances (many f) := by
  rintro ⟨before, rest⟩ way hway
  change way ∈ many.go f before rest at hway
  show way.2.rest <:+ rest
  induction rest generalizing before way with
  | nil => rw [List.mem_singleton.mp hway]
  | cons c rest ih =>
    rw [many.go] at hway
    split at hway
    · rcases List.mem_append.mp hway with hway | hway
      · obtain ⟨inner, hinner, rfl⟩ := List.mem_map.mp hway
        exact (ih (some c) inner hinner).trans (List.suffix_cons c rest)
      · rw [List.mem_singleton.mp hway]
    · rw [List.mem_singleton.mp hway]

/-- Repetitions go on or stay. -/
theorem Advances.star {p : Pattern Unit} (hp : Advances p) : Advances (star p) := by
  have hgo : ∀ n cursor, ∀ way ∈ star.go p n cursor, way.2.rest <:+ cursor.rest := by
    intro n
    induction n with
    | zero =>
      intro cursor way hway
      rw [List.mem_singleton.mp hway]
    | succ n ih =>
      intro cursor way hway
      rw [star.go] at hway
      rcases List.mem_append.mp hway with hway | hway
      · obtain ⟨first, hfirst, hway⟩ := List.mem_flatMap.mp hway
        exact (ih first.2 way hway).trans (hp cursor first (List.mem_filter.mp hfirst).1)
      · rw [List.mem_singleton.mp hway]
  exact fun cursor => hgo cursor.rest.length cursor

/-! ## All matches -/

/-- **A tail in which nothing is found adds nothing to what is found.** -/
theorem findAll_tail {p : Pattern α} (hp : KeepsTail tail p)
    (hnone : ∀ before rest, rest <:+ tail → p ⟨before, rest⟩ = [])
    (text : List Char) : p.findAll (text ++ tail) = p.findAll text := by
  set match? : Option Char → List Char → Option (α × List Char) :=
    fun before rest => (p ⟨before, rest⟩).head?.map fun way => (way.1, way.2.rest) with hmatch
  have hfront : ∀ before rest, match? before (rest ++ tail) =
      (match? before rest).map fun found => (found.1, found.2 ++ tail) := by
    intro before rest
    rw [hmatch]
    dsimp only
    rw [hp, List.head?_map]
    cases (p ⟨before, rest⟩).head? <;> rfl
  have htail : ∀ skip before, (splitMatches match? skip before tail).filterMap
      (fun piece => piece.getRight?.map Prod.snd) = [] := by
    intro skip before
    refine List.filterMap_eq_nil_iff.mpr fun piece hin => ?_
    cases piece with
    | inl c => rfl
    | inr found =>
      obtain ⟨front, rest, after, htext, hfound, -⟩ := match_of_mem_splitMatches hin
      have hways := hnone (front.getLast?.or before) rest ⟨front, htext.symm⟩
      rw [hmatch] at hfound
      dsimp only at hfound
      rw [hways] at hfound
      cases hfound
  have hsplit : ∀ skip before, (splitMatches match? skip before (text ++ tail)).filterMap
      (fun piece => piece.getRight?.map Prod.snd) =
        (splitMatches match? skip before text).filterMap fun piece => piece.getRight?.map Prod.snd := by
    induction text with
    | nil =>
      intro skip before
      rw [List.nil_append, htail]
      cases skip <;> rfl
    | cons c text ih =>
      intro skip before
      cases skip with
      | succ skip => exact ih skip (some c)
      | zero =>
        rw [List.cons_append, splitMatches, splitMatches, ← List.cons_append, hfront]
        cases match? before (c :: text) with
        | none => exact ih 0 (some c)
        | some found =>
          dsimp only [Option.map_some]
          rw [List.filterMap_cons, List.filterMap_cons, List.length_append, List.length_append, Nat.add_sub_add_right, ih]
          rfl
  exact hsplit 0 none

end Assure.Library.Pattern
