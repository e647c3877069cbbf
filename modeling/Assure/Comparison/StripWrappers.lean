import Assure.Library.Brackets
import Assure.Library.Regex

/-!
# Taking wrappers out of an expression's text

Before an expression is parsed, `strip_wrappers` takes conversions of width out of its text: where a bracket is followed
by the head of such a conversion, what comes between the head and the matching bracket is left. The head is compared as
a prefix. A text in which the brackets match stays one (`Bracketed`), and each step replaces one of its groups by its
operand; it ends where no group is left to replace (`stripWrappers_cuts`).

That the text is done at the end, so that a second call changes nothing, is proved for every text.
What is cut, and how many groups, is proved for texts in which the brackets match. What the wrappers
mean is not part of it: nothing is said about the value of the expression.
-/

namespace Assure

open Assure.Library

/-! ## The code -/

section Code

variable (chars : CharClass)

/-- **`skip_ws`**: the text from there on. -/
def skipWs (t : List Char) : List Char := t.dropWhile chars.space

/-- **`match_token`** -/
def matchToken (t tok : List Char) : Option (List Char) :=
  if tok.isPrefixOf (skipWs chars t) then some ((skipWs chars t).drop tok.length) else none

/-- The loop of `match_wrapper` over the tokens. -/
def matchTokens (t : List Char) : List (List Char) → Option (List Char)
  | [] => some t
  | tok :: tokens => (matchToken chars t tok).bind fun rest => matchTokens rest tokens

/-- **`match_wrapper`**: the text behind the head of a wrapper. -/
def matchWrapper (tokens : List (List Char)) : List Char → Option (List Char)
  | '(' :: t => (matchTokens chars (skipWs chars t) tokens).map (skipWs chars)
  | _ => none

/-- **`patterns`** -/
def patterns : List (List (List Char)) :=
  [["Extract".toList, "w32".toList, "0".toList], ["SExt".toList, "w64".toList], ["SExt".toList, "w32".toList],
    ["ZExt".toList, "w32".toList], ["Extract".toList, "w64".toList, "0".toList], ["SExt".toList, "w128".toList]]

/-- The text up to the bracket that closes the first one, and the text behind it. The depth is counted from an opening
bracket on and is never negative. -/
def closingBracket (depth : Nat) : List Char → Option (List Char × List Char)
  | [] => none
  | c :: cs =>
    if c = '(' then (closingBracket (depth + 1) cs).map fun found => (c :: found.1, found.2)
    else if c = ')' then
      if depth - 1 = 0 then some ([], cs)
      else (closingBracket (depth - 1) cs).map fun found => (c :: found.1, found.2)
    else (closingBracket depth cs).map fun found => (c :: found.1, found.2)

/-- What is put in the place of the wrapper at which a text begins, and the text behind it. -/
def unwrapAt (t : List Char) : Option (List Char × List Char) :=
  (patterns.findSome? fun tokens => matchWrapper chars tokens t).bind fun expr =>
    (closingBracket 0 t).map fun (upTo, after) => ((upTo.drop (t.length - expr.length)).rdropWhile chars.space, after)

end Code

/-! ## Runs end -/

section Ends

variable {chars : CharClass}

/-- The closing bracket is searched from left to right; what is found before it and behind it, with
the bracket, is the whole text. -/
theorem closingBracket_length : ∀ {depth : Nat} {t upTo after : List Char}, closingBracket depth t =
    some (upTo, after) →
    t.length = upTo.length + after.length + 1
  | _, [], _, _, h => by cases h
  | depth, c :: cs, upTo, after, h => by
    have hcons : ∀ {depth : Nat}, ((closingBracket depth cs).map fun found => (c :: found.1, found.2)) =
        some (upTo, after) →
        (c :: cs).length = upTo.length + after.length + 1 := by
      intro depth h
      obtain ⟨⟨upTo', after'⟩, hfound, heq⟩ := Option.map_eq_some_iff.mp h
      obtain ⟨rfl, rfl⟩ := Prod.mk.inj heq
      have := closingBracket_length hfound
      simp only [List.length_cons] at this ⊢
      omega
    rw [closingBracket] at h
    split at h
    · exact hcons h
    · split at h
      · split at h
        · obtain ⟨rfl, rfl⟩ := Prod.mk.inj (Option.some.inj h)
          simp
        · exact hcons h
      · exact hcons h

/-- A replacement makes the text shorter. -/
theorem unwrapAt_length {t operand after : List Char} (h : unwrapAt chars t = some (operand, after)) :
    operand.length + after.length < t.length := by
  obtain ⟨expr, -, h⟩ := Option.bind_eq_some_iff.mp h
  obtain ⟨⟨upTo, after'⟩, hclosing, heq⟩ := Option.map_eq_some_iff.mp h
  obtain ⟨rfl, rfl⟩ := Prod.mk.inj heq
  have hlength := closingBracket_length hclosing
  have hprefix := (List.rdropWhile_prefix chars.space (upTo.drop (t.length - expr.length))).length_le
  rw [List.length_drop] at hprefix
  omega

end Ends

section Loops

variable (chars : CharClass)

/-- The inner loop: the text, the place and whether something was replaced. -/
def stripPass (s : List Char) (i : Nat) (changed : Bool) : List Char × Bool :=
  if _ : i < s.length then
    match (s.drop i).findIdx? (· == '(') with
    | none => (s, changed)
    | some k =>
      match hreplace : unwrapAt chars (s.drop (i + k)) with
      | none => stripPass s (i + k + 1) changed
      | some (operand, after) => stripPass (s.take (i + k) ++ operand ++ after) (i + k - 1) true
  else (s, changed)
termination_by (s.length, s.length - i)
decreasing_by
  · right
    omega
  · left
    have hlength := unwrapAt_length hreplace
    simp only [List.length_append, List.length_take, List.length_drop] at hlength ⊢
    omega

/-- One replacement in a text. -/
def Replaces (s s' : List Char) : Prop :=
  ∃ front back operand after, s = front ++ '(' :: back ∧
    unwrapAt chars ('(' :: back) = some (operand, after) ∧ s' = front ++ operand ++ after

/-- Nothing can be replaced from a place on. -/
def DoneFrom (s : List Char) (i : Nat) : Prop :=
  ∀ front back, s = front ++ '(' :: back → i ≤ front.length → unwrapAt chars ('(' :: back) = none

variable {chars}

/-- Every replacement makes the text shorter. This is why the passes come to an end. -/
theorem Replaces.length {s s' : List Char} (h : Replaces chars s s') : s'.length < s.length := by
  obtain ⟨front, back, operand, after, rfl, hreplace, rfl⟩ := h
  have hlength := unwrapAt_length hreplace
  simp only [List.length_append] at hlength ⊢
  omega

/-- The first bracket behind a place. -/
theorem split_of_find {s : List Char} {i k : Nat} (hfind : (s.drop i).findIdx? (· == '(') = some k) :
    s = s.take (i + k) ++ s.drop (i + k) ∧ (∃ back, s.drop (i + k) = '(' :: back) ∧ (s.take (i + k)).length = i + k ∧
      ∀ front back, s = front ++ '(' :: back → i ≤ front.length → i + k ≤ front.length := by
  obtain ⟨hk, hbracket, hbefore⟩ := List.findIdx?_eq_some_iff_getElem.mp hfind
  have hlt : i + k < s.length := by
    rw [List.length_drop] at hk
    omega
  refine ⟨(List.take_append_drop _ _).symm, ⟨s.drop (i + k + 1), ?_⟩, by rw [List.length_take]; omega, ?_⟩
  · rw [List.drop_eq_getElem_cons hlt]
    rw [List.getElem_drop, beq_iff_eq] at hbracket
    rw [hbracket]
  · intro front back hs hle
    by_contra hlater
    have hj : front.length - i < k := by omega
    refine hbefore (front.length - i) hj ?_
    subst hs
    simp [Nat.add_sub_cancel' hle]

/-- One pass: it reports a change exactly if it replaced something, and where it reports none, no
wrapper is left from its place on. -/
theorem stripPass_spec (s : List Char) (i : Nat) (changed : Bool) :
    (((stripPass chars s i changed).2 = false → changed = false ∧ (stripPass chars s i changed).1 = s ∧
      DoneFrom chars s i) ∧ ((stripPass chars s i changed).2 = true →
        changed = true ∨ Relation.TransGen (Replaces chars) s (stripPass chars s i changed).1)) ∧
          Relation.ReflTransGen (Replaces chars) s (stripPass chars s i changed).1 := by
  induction s, i, changed using stripPass.induct chars with
  | case1 s i changed hi hfind =>
    rw [stripPass, dif_pos hi, hfind]
    refine ⟨⟨fun h => ⟨h, rfl, fun front back hs hle => ?_⟩, .inl⟩, .refl⟩
    rw [List.findIdx?_eq_none_iff] at hfind
    have hmem : '(' ∈ s.drop i := by
      rw [hs, List.drop_append_of_le_length hle]
      exact List.mem_append_right _ List.mem_cons_self
    exact absurd (hfind _ hmem) (by decide)
  | case2 s i changed hi k hfind hreplace ih =>
    rw [stripPass, dif_pos hi, hfind]
    dsimp only
    split
    · obtain ⟨⟨hdone, hchanged⟩, hruns⟩ := ih
      refine ⟨⟨fun h => ?_, hchanged⟩, hruns⟩
      obtain ⟨hfalse, hsame, hrest⟩ := hdone h
      refine ⟨hfalse, hsame, fun front back hs hle => ?_⟩
      obtain ⟨-, -, -, hfirst⟩ := split_of_find hfind
      rcases Nat.lt_or_ge (i + k) front.length with hlt | hge
      · exact hrest front back hs hlt
      · have hlength : front.length = i + k := Nat.le_antisymm hge (hfirst front back hs hle)
        rw [hs, ← hlength, List.drop_left] at hreplace
        exact hreplace
    · rename_i hsome
      rw [hreplace] at hsome
      cases hsome
  | case3 s i changed hi k hfind operand after hreplace ih =>
    rw [stripPass, dif_pos hi, hfind]
    dsimp only
    split
    · rename_i hnone
      rw [hreplace] at hnone
      cases hnone
    · rename_i operand' after' hsome
      obtain ⟨rfl, rfl⟩ := Prod.mk.inj (Option.some.inj (hreplace.symm.trans hsome))
      obtain ⟨⟨hdone, -⟩, hruns⟩ := ih
      obtain ⟨hsplit, ⟨back, hback⟩, -, -⟩ := split_of_find hfind
      have hstep : Replaces chars s (s.take (i + k) ++ operand ++ after) := by
        refine ⟨s.take (i + k), back, operand, after, ?_, ?_, rfl⟩
        · rw [← hback]
          exact hsplit
        · rw [← hback]
          exact hreplace
      exact ⟨⟨fun h => absurd (hdone h).1 (by decide), fun _ => .inr (.head' hstep hruns)⟩, .head hstep hruns⟩
  | case4 s i changed hi =>
    rw [stripPass, dif_neg hi]
    refine ⟨⟨fun h => ⟨h, rfl, fun front back hs hle => ?_⟩, .inl⟩, .refl⟩
    rw [hs, List.length_append, List.length_cons] at hi
    omega

/-- A pass that reports a change has made the text shorter. -/
theorem stripPass_length {s : List Char} (h : (stripPass chars s 0 false).2 = true) :
    (stripPass chars s 0 false).1.length < s.length := by
  obtain ⟨⟨-, hchanged⟩, -⟩ := @stripPass_spec chars s 0 false
  rcases hchanged h with h | h
  · cases h
  · have hshorter : ∀ {s'}, Relation.TransGen (Replaces chars) s s' → s'.length < s.length := by
      intro s' h
      induction h with
      | single h => exact h.length
      | tail _ h ih => exact h.length.trans ih
    exact hshorter h

end Loops

variable (chars : CharClass)

/-- **`strip_wrappers`** -/
def stripWrappers (s : List Char) : List Char :=
  if _ : (stripPass chars s 0 false).2 then stripWrappers (stripPass chars s 0 false).1
  else (stripPass chars s 0 false).1
termination_by s.length
decreasing_by exact stripPass_length ‹_›

variable {chars}

/-- **A run of the passes**: replacements until nothing can be replaced. -/
theorem stripWrappers_spec (s : List Char) :
    Relation.ReflTransGen (Replaces chars) s (stripWrappers chars s) ∧ DoneFrom chars (stripWrappers chars s) 0 := by
  induction s using stripWrappers.induct chars with
  | case1 s hchanged ih =>
    rw [stripWrappers, dif_pos hchanged]
    obtain ⟨-, hruns⟩ := @stripPass_spec chars s 0 false
    exact ⟨hruns.trans ih.1, ih.2⟩
  | case2 s hchanged =>
    rw [stripWrappers, dif_neg hchanged]
    obtain ⟨⟨hdone, -⟩, hruns⟩ := @stripPass_spec chars s 0 false
    obtain ⟨-, hsame, hdone⟩ := hdone (Bool.eq_false_iff.mpr hchanged)
    rw [hsame]
    exact ⟨.refl, hdone⟩

/-- A text with no wrapper is left as it is. -/
theorem stripWrappers_of_done {s : List Char} (h : DoneFrom chars s 0) : stripWrappers chars s = s := by
  obtain ⟨hruns, -⟩ := @stripWrappers_spec chars s
  rcases Relation.ReflTransGen.cases_head hruns with heq | ⟨s', ⟨front, back, operand, after, hs, hreplace, -⟩, -⟩
  · exact heq.symm
  · rw [h front back hs (Nat.zero_le _)] at hreplace
    cases hreplace

/-- **A second run changes nothing**, whatever the text, its brackets matched or not: the loop goes on until no
wrapper matches anywhere, and each replacement makes the text shorter. -/
theorem stripWrappers_stripWrappers (s : List Char) :
    stripWrappers chars (stripWrappers chars s) = stripWrappers chars s :=
  stripWrappers_of_done (stripWrappers_spec s).2

/-! ## In texts whose brackets match -/

section Pieces

variable (chars)

/-- `matchTokens` in a group. -/
def Bracketed.matchTokens (f : Bracketed) : List (List Char) → Option Bracketed
  | [] => some f
  | tok :: tokens =>
    ((f.dropBlanks chars.space).takeWord tok).bind fun rest => Bracketed.matchTokens rest tokens

/-- **The operand of a wrapper**: what is left of a group with this inside. -/
def operand? (inner : Bracketed) : Option Bracketed :=
  (patterns.findSome? fun tokens =>
    (Bracketed.matchTokens chars (inner.dropBlanks chars.space) tokens).map (Bracketed.dropBlanks chars.space)).map
      (Bracketed.trimEnd chars.space)

variable {chars}

/-- Brackets are no blanks, so skipping blanks never skips one. -/
theorem space_bracket : chars.space '(' = false ∧ chars.space ')' = false :=
  ⟨chars.space_ascii '(' (by decide), chars.space_ascii ')' (by decide)⟩

/-- Matching the words of a wrapper on a text with its brackets is matching them on the text as a
row of characters, up to the bracket behind. -/
theorem matchTokens_text {tokens : List (List Char)} (hplain : ∀ tok ∈ tokens, ∀ c ∈ tok, c ≠ '(' ∧ c ≠ ')')
    (f : Bracketed) (after : List Char) :
    matchTokens chars (f.text ++ ')' :: after) tokens =
      (Bracketed.matchTokens chars f tokens).map fun g => g.text ++ ')' :: after := by
  induction tokens generalizing f with
  | nil => rfl
  | cons tok tokens ih =>
    rw [matchTokens, Bracketed.matchTokens, matchToken, skipWs,
      Bracketed.text_dropBlanks space_bracket.1 space_bracket.2,
      Bracketed.text_takeWord (hplain tok List.mem_cons_self)]
    cases (f.dropBlanks chars.space).takeWord tok with
    | none => rfl
    | some g => exact ih (fun t ht => hplain t (List.mem_cons_of_mem tok ht)) g

/-- The words of the wrappers hold no bracket. -/
theorem patterns_plain : ∀ tokens ∈ patterns, ∀ tok ∈ tokens, ∀ c ∈ tok, c ≠ '(' ∧ c ≠ ')' := by
  have hall : (patterns.all fun tokens => tokens.all fun tok => tok.all fun c => c != '(' && c != ')') = true := rfl
  simpa [List.all_eq_true] using hall

/-- What is left behind a match is a part of the text, with whole groups of brackets. -/
theorem part_matchTokens {tokens : List (List Char)} {f g : Bracketed}
    (h : Bracketed.matchTokens chars f tokens = some g) : Bracketed.Part g f := by
  induction tokens generalizing f with
  | nil => exact Option.some.inj h ▸ .refl f
  | cons tok tokens ih =>
    obtain ⟨k, hword, hmatch⟩ := Option.bind_eq_some_iff.mp h
    exact (ih hmatch).trans ((Bracketed.part_takeWord hword).trans (Bracketed.part_dropBlanks f))

/-- Growing leaves the head of a wrapper. -/
theorem grows_matchTokens {tokens : List (List Char)} {f f' g : Bracketed} (hgrows : f.Grows f')
    (h : Bracketed.matchTokens chars f tokens = some g) :
    ∃ g', Bracketed.matchTokens chars f' tokens = some g' ∧ g.Grows g' := by
  induction tokens generalizing f f' with
  | nil =>
    obtain rfl := Option.some.inj h
    exact ⟨f', rfl, hgrows⟩
  | cons tok tokens ih =>
    obtain ⟨k, hword, hmatch⟩ := Option.bind_eq_some_iff.mp h
    obtain ⟨k', hword', hk⟩ := hgrows.dropBlanks.takeWord hword
    obtain ⟨g', hmatch', hg⟩ := ih hk hmatch
    exact ⟨g', by rw [Bracketed.matchTokens, hword', Option.bind_some, hmatch'], hg⟩

/-- **A group that grows stays a wrapper.** -/
theorem operand?_grows {f f' : Bracketed} (hgrows : f.Grows f') (h : (operand? chars f).isSome) :
    (operand? chars f').isSome := by
  rw [operand?, Option.isSome_map, List.findSome?_isSome_iff] at h ⊢
  obtain ⟨tokens, htokens, hmatch⟩ := h
  refine ⟨tokens, htokens, ?_⟩
  rw [Option.isSome_map] at hmatch ⊢
  obtain ⟨g, hg⟩ := Option.isSome_iff_exists.mp hmatch
  obtain ⟨g', hg', -⟩ := grows_matchTokens hgrows.dropBlanks hg
  rw [hg']
  rfl

/-- The operand of a wrapper is a part of it. -/
theorem operand?_part {f g : Bracketed} (h : operand? chars f = some g) : g.Part f := by
  obtain ⟨k, hfound, rfl⟩ := Option.map_eq_some_iff.mp h
  obtain ⟨tokens, -, hmatch⟩ := List.exists_of_findSome?_eq_some hfound
  obtain ⟨m, hm, rfl⟩ := Option.map_eq_some_iff.mp hmatch
  exact (Bracketed.part_trimEnd _).trans ((Bracketed.part_dropBlanks m).trans
    ((part_matchTokens hm).trans (Bracketed.part_dropBlanks f)))

/-- Replacing a wrapper by its operand takes at least one group of brackets away and brings none in.
-/
theorem operand?_shrinks : Bracketed.Shrinks (operand? chars) where
  groups _ _ h := (operand?_part h).groups
  redexes _ _ h := (operand?_part h).redexes _
  plain _ _ h hplain := (operand?_part h).plain hplain
  stable _ _ hcut h := operand?_grows hcut.grows h

/-! ## The replacement of a group -/

/-- Groups whose brackets match are passed over in the search, so the bracket that is found is the
one that closes the group. -/
theorem closingBracket_append : ∀ {f : Bracketed} {depth : Nat} {rest : List Char}, f.Plain →
    closingBracket (depth + 1) (f.text ++ rest) =
      (closingBracket (depth + 1) rest).map fun found => (f.text ++ found.1, found.2)
  | .nil, depth, rest, _ => by
    rw [Bracketed.text, List.nil_append]
    cases closingBracket (depth + 1) rest <;> rfl
  | .char c f, depth, rest, hplain => by
    rw [Bracketed.text, List.cons_append, closingBracket, if_neg hplain.1, if_neg hplain.2.1,
      closingBracket_append hplain.2.2]
    cases closingBracket (depth + 1) rest <;> rfl
  | .group inner f, depth, rest, hplain => by
    rw [Bracketed.text, List.cons_append, closingBracket, if_pos rfl, List.append_assoc, closingBracket_append hplain.1,
      List.cons_append, closingBracket, if_neg (by decide), if_pos rfl, if_neg (by omega), Nat.add_sub_cancel,
      closingBracket_append hplain.2]
    cases closingBracket (depth + 1) rest <;> simp

/-- The text of a group up to the bracket that closes it. -/
theorem closingBracket_group {inner : Bracketed} (hplain : inner.Plain) (after : List Char) :
    closingBracket 0 ('(' :: (inner.text ++ ')' :: after)) = some ('(' :: inner.text, after) := by
  rw [closingBracket, if_pos rfl, closingBracket_append hplain, closingBracket, if_neg (by decide), if_pos rfl]
  simp

/-- What a match leaves is the end of the group. -/
theorem suffix_matchTokens {tokens : List (List Char)} {f g : Bracketed}
    (h : Bracketed.matchTokens chars f tokens = some g) : g.text <:+ f.text := by
  induction tokens generalizing f with
  | nil => exact Option.some.inj h ▸ List.suffix_refl _
  | cons tok tokens ih =>
    obtain ⟨k, hword, hmatch⟩ := Option.bind_eq_some_iff.mp h
    exact (ih hmatch).trans ((Bracketed.suffix_takeWord hword).trans (Bracketed.suffix_dropBlanks f))

/-- **The replacement of a group is its operand.** -/
theorem unwrapAt_group {inner : Bracketed} (hplain : inner.Plain) (after : List Char) :
    unwrapAt chars ('(' :: (inner.text ++ ')' :: after)) =
      (operand? chars inner).map fun operand => (operand.text, after) := by
  have hwrapper : ∀ tokens ∈ patterns, matchWrapper chars tokens ('(' :: (inner.text ++ ')' :: after)) =
      ((Bracketed.matchTokens chars (inner.dropBlanks chars.space) tokens).map (Bracketed.dropBlanks chars.space)).map
        fun g => g.text ++ ')' :: after := by
    intro tokens htokens
    rw [matchWrapper, skipWs, Bracketed.text_dropBlanks space_bracket.1 space_bracket.2,
      matchTokens_text (patterns_plain tokens htokens)]
    cases Bracketed.matchTokens chars (inner.dropBlanks chars.space) tokens with
    | none => rfl
    | some g => exact congrArg some (Bracketed.text_dropBlanks space_bracket.1 space_bracket.2 g after)
  have hfind : ∀ {list : List (List (List Char))}, (∀ tokens ∈ list, tokens ∈ patterns) →
      (list.findSome? fun tokens => matchWrapper chars tokens ('(' :: (inner.text ++ ')' :: after))) =
        (list.findSome? fun tokens => (Bracketed.matchTokens chars (inner.dropBlanks chars.space) tokens).map
          (Bracketed.dropBlanks chars.space)).map fun g => g.text ++ ')' :: after := by
    intro list hlist
    induction list with
    | nil => rfl
    | cons tokens list ih =>
      rw [List.findSome?_cons, List.findSome?_cons, hwrapper tokens (hlist tokens List.mem_cons_self)]
      cases Bracketed.matchTokens chars (inner.dropBlanks chars.space) tokens with
      | none => exact ih fun t ht => hlist t (List.mem_cons_of_mem tokens ht)
      | some g => rfl
  rw [unwrapAt, hfind fun _ => id, closingBracket_group hplain, operand?]
  cases hfound : patterns.findSome? fun tokens =>
    (Bracketed.matchTokens chars (inner.dropBlanks chars.space) tokens).map
      (Bracketed.dropBlanks chars.space) with
  | none => rfl
  | some g =>
    obtain ⟨tokens, -, hmatch⟩ := List.exists_of_findSome?_eq_some hfound
    obtain ⟨k, hk, rfl⟩ := Option.map_eq_some_iff.mp hmatch
    obtain ⟨front, hfront⟩ : (k.dropBlanks chars.space).text <:+ inner.text :=
      (Bracketed.suffix_dropBlanks k).trans ((suffix_matchTokens hk).trans (Bracketed.suffix_dropBlanks inner))
    have hdrop : ('(' :: inner.text).drop (('(' :: (inner.text ++ ')' :: after)).length -
        ((k.dropBlanks chars.space).text ++ ')' :: after).length) = (k.dropBlanks chars.space).text := by
      rw [← hfront]
      have hlength : ('(' :: (front ++ (k.dropBlanks chars.space).text ++ ')' :: after)).length -
          ((k.dropBlanks chars.space).text ++ ')' :: after).length = ('(' :: front).length := by
        simp only [List.length_cons, List.length_append]
        omega
      rw [hlength, ← List.cons_append, List.drop_left]
    simp only [Option.map_some, Option.bind_some, hdrop, Bracketed.text_trimEnd space_bracket.2]

/-- A replacement in a text whose brackets match. -/
theorem Replaces.cut {f : Bracketed} {s' : List Char} (hplain : f.Plain) (h : Replaces chars f.text s') :
    ∃ f', Bracketed.Cut (operand? chars) f f' ∧ f'.text = s' := by
  obtain ⟨front, back, operand, after, hs, hreplace, rfl⟩ := h
  obtain ⟨inner, after', hinner, rfl, hcut⟩ := @Bracketed.exists_group (operand? chars) _ _ _ hplain hs
  rw [unwrapAt_group hinner] at hreplace
  obtain ⟨op, hop, heq⟩ := Option.map_eq_some_iff.mp hreplace
  obtain ⟨rfl, rfl⟩ := Prod.mk.inj heq
  obtain ⟨f', hf', htext⟩ := hcut op hop
  exact ⟨f', hf', htext⟩

/-- **What the run comes to**: groups are replaced by their operands until there is none left to replace, and as many as
could be replaced at first are gone. -/
theorem stripWrappers_cuts {f : Bracketed} (hplain : f.Plain) :
    ∃ f', Relation.ReflTransGen (Bracketed.Cut (operand? chars)) f f' ∧ f'.text = stripWrappers chars f.text ∧
      f'.Plain ∧ f'.redexes (operand? chars) = 0 ∧ f'.groups + f.redexes (operand? chars) ≤ f.groups := by
  obtain ⟨hruns, hdone⟩ := @stripWrappers_spec chars f.text
  have hfollow : ∀ {s'}, Relation.ReflTransGen (Replaces chars) f.text s' →
      ∃ f', Relation.ReflTransGen (Bracketed.Cut (operand? chars)) f f' ∧ f'.text = s' := by
    intro s' h
    induction h with
    | refl => exact ⟨f, .refl, rfl⟩
    | tail _ hstep ih =>
      obtain ⟨g, hg, rfl⟩ := ih
      obtain ⟨g', hcut, htext⟩ := hstep.cut (Bracketed.Cuts.plain operand?_shrinks hg hplain)
      exact ⟨g', hg.tail hcut, htext⟩
  obtain ⟨f', hf', htext⟩ := hfollow hruns
  have hplain' := Bracketed.Cuts.plain operand?_shrinks hf' hplain
  have hirreducible : f'.redexes (operand? chars) = 0 := by
    refine Nat.eq_zero_of_not_pos fun hpos => ?_
    obtain ⟨front, inner, after, hinner, hsome, hsplit⟩ := Bracketed.exists_redex hplain' hpos
    have hnone := hdone front (inner.text ++ ')' :: after) (by rw [← htext, hsplit]) (Nat.zero_le _)
    rw [unwrapAt_group hinner, Option.map_eq_none_iff] at hnone
    rw [hnone] at hsome
    cases hsome
  exact ⟨f', hf', htext, hplain', hirreducible, Bracketed.Cuts.count operand?_shrinks hf' hirreducible⟩

/-- `(ZExt w32 (SExt w64 x))` -/
def nestedWrappers : Bracketed :=
  .group (.ofChars "ZExt w32 ".toList ++ .group (.ofChars "SExt w64 x".toList) .nil) .nil

/-- The theorem at a text with two wrappers, one inside the other. -/
theorem stripWrappers_cuts_nested : ∃ f',
    Relation.ReflTransGen (Bracketed.Cut (operand? CharClass.ascii)) nestedWrappers f' ∧
      f'.text = stripWrappers CharClass.ascii nestedWrappers.text ∧
      f'.groups + nestedWrappers.redexes (operand? CharClass.ascii) ≤ nestedWrappers.groups := by
  have houter : (Bracketed.ofChars "ZExt w32 ".toList).Plain := Bracketed.plain_ofChars (by simp)
  have hinner : (Bracketed.ofChars "SExt w64 x".toList).Plain := Bracketed.plain_ofChars (by simp)
  have hplain : nestedWrappers.Plain := ⟨Bracketed.plain_append.mpr ⟨houter, hinner, trivial⟩, trivial⟩
  obtain ⟨f', hcuts, htext, -, -, hcount⟩ := @stripWrappers_cuts CharClass.ascii nestedWrappers hplain
  exact ⟨f', hcuts, htext, hcount⟩

end Pieces

end Assure
