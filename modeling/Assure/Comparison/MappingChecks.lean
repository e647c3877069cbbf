import Assure.Library.Collections
import Assure.Library.Regex

/-!
# Checking an argument map

`_validate_mapping` goes through the object that the model has returned and keeps the entries that send one
position to another: digits on both sides, both in range, and no value a second time. It compares values as
texts, and `isdigit` holds of more characters than `int` can read.

The equivalence is for every object with any values and every number of arguments. Which characters
are digits, and which of them `int` reads, is a parameter with the documented facts about the two.
-/

namespace Assure

open Assure.Library

/-- **Python's digits.** `isdigit` of a character, the value of a decimal digit, and the number of digits
that `int` takes at most. -/
structure DigitClass where
  isDigit : Char → Bool
  decimal : Char → Option Nat
  limit : Option Nat
  isDigit_ascii : ∀ c : Char, c.toNat < 128 → isDigit c = c.isDigit
  decimal_ascii : ∀ c : Char, c.toNat < 128 → decimal c = if c.isDigit then some (c.toNat - 48) else none
  isDigit_of_decimal : ∀ c n, decimal c = some n → isDigit c = true

namespace DigitClass

/-- `text.isdigit()` -/
def isDigits (digits : DigitClass) (text : String) : Bool :=
  !text.toList.isEmpty && text.toList.all digits.isDigit

/-- `int(text)` of a text of digits. It raises for a digit that is not decimal and for too many digits. -/
def int (digits : DigitClass) (text : String) : Option Nat :=
  if digits.limit.any fun limit => limit < text.length then none
  else text.toList.foldlM (fun n c => (digits.decimal c).map (10 * n + ·)) 0

end DigitClass

/-- `position < argc`, where the number of arguments is known. -/
def inRange (argc : Int) (position : Nat) : Bool := argc < 0 || position < argc

/-- The loop's variables. -/
structure Validation where
  clean : Dict String String
  seen : Dict String String
  dropped : List String

section Validate

variable {V : Type*} (chars : CharClass) (digits : DigitClass) (str : V → String) (cArgc rArgc : Int)

/-- An entry's texts: of a value such as `1,2` the first position. -/
def entryTexts (entry : String × V) : String × String :=
  let vs := strip chars (str entry.2)
  (strip chars entry.1,
    if ',' ∈ vs.toList then strip chars (String.ofList (vs.toList.takeWhile (· ≠ ','))) else vs)

/-- One entry. -/
def validateEntry (st : Validation) (texts : String × String) : Option Validation :=
  let (ks, vs) := texts
  let drop (why : String) : Validation := { st with dropped := st.dropped ++ [ks ++ "->" ++ vs ++ "(" ++ why ++ ")"] }
  if !digits.isDigits ks || !digits.isDigits vs then some (drop "not a number")
  else
    (digits.int ks).bind fun (ki : Nat) => (digits.int vs).map fun (vi : Nat) =>
      if cArgc ≥ 0 ∧ cArgc ≤ ki then drop ("C position out of range >= " ++ toString cArgc)
      else if rArgc ≥ 0 ∧ rArgc ≤ vi then drop ("Rust position out of range >= " ++ toString rArgc)
      else
        match st.seen.get? vs with
        | some other => drop ("collides with " ++ other ++ "->" ++ vs ++ ", non-injective")
        | none => { st with clean := st.clean.insert ks vs, seen := st.seen.insert vs ks }

/-- **`_validate_mapping`**; it answers nothing when it raises. What is not an object is dropped. -/
def validateMapping (mapping : Option (Dict String V)) : Option (Dict String String) :=
  match mapping with
  | none => some Dict.empty
  | some mapping =>
    ((mapping.entries.map (entryTexts chars str)).foldlM (validateEntry digits cArgc rArgc)
      ⟨Dict.empty, Dict.empty, []⟩).map Validation.clean

end Validate

/-! ## What is kept -/

section Kept

variable {digits : DigitClass} {cArgc rArgc : Int}

/-- Both texts are digits. -/
def BothDigits (digits : DigitClass) (e : String × String) : Prop :=
  digits.isDigits e.1 = true ∧ digits.isDigits e.2 = true

/-- An entry of two positions in range. -/
def Usable (digits : DigitClass) (cArgc rArgc : Int) (e : String × String) : Prop :=
  BothDigits digits e ∧ (digits.int e.1).any (inRange cArgc) = true ∧ (digits.int e.2).any (inRange rArgc) = true

instance (e : String × String) : Decidable (Usable digits cArgc rArgc e) :=
  inferInstanceAs (Decidable ((_ ∧ _) ∧ _ ∧ _))

/-- **An entry that stays**, among usable ones: the first with its value, and no later one that is the first
with its own value has the same key. -/
def Survives (entries : List (String × String)) (e : String × String) : Prop :=
  ∃ before after, entries = before ++ e :: after ∧ (∀ f ∈ before, f.2 ≠ e.2) ∧
    ∀ mid f rest, after = mid ++ f :: rest → f.1 = e.1 → ∃ g ∈ before ++ e :: mid, g.2 = f.2

/-- **A map of positions**: decimal numbers in range, no position twice on either side. -/
structure MapsPositions (digits : DigitClass) (cArgc rArgc : Int) (clean : Dict String String) : Prop where
  decimal : ∀ e ∈ clean.entries, Usable digits cArgc rArgc e
  keys : ∀ e ∈ clean.entries, ∀ f ∈ clean.entries, e ≠ f → digits.int e.1 ≠ digits.int f.1
  values : ∀ e ∈ clean.entries, ∀ f ∈ clean.entries, e ≠ f → digits.int e.2 ≠ digits.int f.2

/-- Nothing survives out of no entries. -/
theorem survives_nil (e : String × String) : ¬ Survives [] e := by
  rintro ⟨before, after, h, -⟩
  simp at h

/-- A split of a list with a last member is at that member or before it. -/
theorem snoc_eq_split {α : Type*} {xs before after : List α} {a e : α} (h : xs ++ [a] = before ++ e :: after) :
    (after = [] ∧ xs = before ∧ a = e) ∨ ∃ rest, after = rest ++ [a] ∧ xs = before ++ e :: rest := by
  rcases List.eq_nil_or_concat' after with rfl | ⟨rest, b, rfl⟩
  · obtain ⟨hxs, ha⟩ := List.append_inj' h rfl
    exact .inl ⟨rfl, hxs, (List.cons.inj ha).1⟩
  · rw [← List.cons_append, ← List.append_assoc] at h
    obtain ⟨hxs, ha⟩ := List.append_inj' h rfl
    exact .inr ⟨rest, by rw [(List.cons.inj ha).1], hxs⟩

/-- An entry whose value was there before changes nothing. -/
theorem survives_snoc_seen {entries : List (String × String)} {a : String × String}
    (hseen : ∃ f ∈ entries, f.2 = a.2) (e : String × String) :
    Survives (entries ++ [a]) e ↔ Survives entries e := by
  constructor
  · rintro ⟨before, after, heq, hfirst, hlast⟩
    rcases snoc_eq_split heq with ⟨-, rfl, rfl⟩ | ⟨after, rfl, rfl⟩
    · obtain ⟨f, hf, hvalue⟩ := hseen
      exact absurd hvalue (hfirst f hf)
    · refine ⟨before, after, rfl, hfirst, fun mid f rest hafter => hlast mid f (rest ++ [a]) ?_⟩
      rw [hafter, List.append_assoc, List.cons_append]
  · rintro ⟨before, after, rfl, hfirst, hlast⟩
    refine ⟨before, after ++ [a], by simp, hfirst, fun mid f rest hafter hkey => ?_⟩
    rcases snoc_eq_split hafter with ⟨-, rfl, rfl⟩ | ⟨rest, rfl, rfl⟩
    · exact hseen
    · exact hlast mid f rest rfl hkey

/-- An entry with a new value stays, in place of the one with its key. -/
theorem survives_snoc_new {entries : List (String × String)} {a : String × String}
    (hnew : ∀ f ∈ entries, f.2 ≠ a.2) (e : String × String) :
    Survives (entries ++ [a]) e ↔ e = a ∨ Survives entries e ∧ e.1 ≠ a.1 := by
  constructor
  · rintro ⟨before, after, heq, hfirst, hlast⟩
    rcases snoc_eq_split heq with ⟨-, -, ha⟩ | ⟨after, rfl, rfl⟩
    · exact .inl ha.symm
    · refine .inr ⟨⟨before, after, rfl, hfirst, fun mid f rest hafter => hlast mid f (rest ++ [a]) ?_⟩, ?_⟩
      · rw [hafter, List.append_assoc, List.cons_append]
      · intro hkey
        obtain ⟨g, hg, hvalue⟩ := hlast after a [] rfl hkey.symm
        exact hnew g hg hvalue
  · rintro (rfl | ⟨⟨before, after, rfl, hfirst, hlast⟩, hkey⟩)
    · refine ⟨entries, [], rfl, hnew, fun mid f rest hafter => ?_⟩
      simp at hafter
    · refine ⟨before, after ++ [a], by simp, hfirst, fun mid f rest hafter hf => ?_⟩
      rcases snoc_eq_split hafter with ⟨-, rfl, rfl⟩ | ⟨rest, rfl, rfl⟩
      · exact absurd hf.symm hkey
      · exact hlast mid f rest rfl hf

/-! ## The loop -/

/-- What holds after the entries so far. -/
structure Validation.Reached (digits : DigitClass) (cArgc rArgc : Int) (entries : List (String × String))
    (st : Validation) : Prop where
  clean : ∀ e, e ∈ st.clean.entries ↔ Survives (entries.filter (Usable digits cArgc rArgc ·)) e
  seen : ∀ vs, vs ∈ st.seen.keys ↔ ∃ e ∈ entries.filter (Usable digits cArgc rArgc ·), e.2 = vs

/-- Both numbers of an entry can be read, if it has two. -/
def Readable (digits : DigitClass) (e : String × String) : Prop :=
  BothDigits digits e → (digits.int e.1).isSome = true ∧ (digits.int e.2).isSome = true

/-- A position is out of range exactly if the number of arguments is known and not above it; a
negative number of arguments means that it is unknown. -/
theorem not_inRange {argc : Int} {position : Nat} : inRange argc position = false ↔ argc ≥ 0 ∧ argc ≤ position := by
  simp [inRange, Bool.or_eq_false_iff]

/-- An entry that is not usable is passed over, if it can be read. -/
theorem validateEntry_unusable {st : Validation} {e : String × String} (hreadable : Readable digits e)
    (h : ¬ Usable digits cArgc rArgc e) :
    ∃ st', validateEntry digits cArgc rArgc st e = some st' ∧ st'.clean = st.clean ∧ st'.seen = st.seen := by
  unfold validateEntry
  by_cases hdigits : BothDigits digits e
  · obtain ⟨hk, hv⟩ := hreadable hdigits
    obtain ⟨ki, hki⟩ := Option.isSome_iff_exists.mp hk
    obtain ⟨vi, hvi⟩ := Option.isSome_iff_exists.mp hv
    simp only [hdigits.1, hdigits.2, hki, hvi, Bool.not_true, Bool.or_self, Bool.false_eq_true, if_false,
      Option.bind_some, Option.map_some]
    by_cases hc : cArgc ≥ 0 ∧ cArgc ≤ ki
    · exact ⟨_, rfl, by rw [if_pos hc], by rw [if_pos hc]⟩
    · by_cases hr : rArgc ≥ 0 ∧ rArgc ≤ vi
      · exact ⟨_, rfl, by rw [if_neg hc, if_pos hr], by rw [if_neg hc, if_pos hr]⟩
      · refine absurd ⟨hdigits, ?_, ?_⟩ h
        · rw [hki]
          exact Bool.eq_true_of_not_eq_false fun hfalse => hc (not_inRange.mp hfalse)
        · rw [hvi]
          exact Bool.eq_true_of_not_eq_false fun hfalse => hr (not_inRange.mp hfalse)
  · have hfalse : (!digits.isDigits e.1 || !digits.isDigits e.2) = true := by
      rw [← Bool.not_and, Bool.not_eq_true', Bool.eq_false_iff]
      intro htrue
      exact hdigits (Bool.and_eq_true_iff.mp htrue)
    simp only [hfalse, if_true]
    exact ⟨_, rfl, rfl, rfl⟩

/-- A usable entry is kept unless its value was seen. -/
theorem validateEntry_usable {st : Validation} {e : String × String} (h : Usable digits cArgc rArgc e) :
    ∃ st', validateEntry digits cArgc rArgc st e = some st' ∧
      (e.2 ∈ st.seen.keys → st'.clean = st.clean ∧ st'.seen = st.seen) ∧
      (e.2 ∉ st.seen.keys → st'.clean = st.clean.insert e.1 e.2 ∧ st'.seen = st.seen.insert e.2 e.1) := by
  obtain ⟨hdigits, hk, hv⟩ := h
  obtain ⟨ki, hki, hkrange⟩ := (Option.any_eq_true _ _).mp hk
  obtain ⟨vi, hvi, hvrange⟩ := (Option.any_eq_true _ _).mp hv
  have hc : ¬ (cArgc ≥ 0 ∧ cArgc ≤ ki) := fun h => Bool.false_ne_true ((not_inRange.mpr h).symm.trans hkrange)
  have hr : ¬ (rArgc ≥ 0 ∧ rArgc ≤ vi) := fun h => Bool.false_ne_true ((not_inRange.mpr h).symm.trans hvrange)
  unfold validateEntry
  simp only [hdigits.1, hdigits.2, hki, hvi, Bool.not_true, Bool.or_self, Bool.false_eq_true, if_false,
    Option.bind_some, Option.map_some, if_neg hc, if_neg hr]
  cases hseen : st.seen.get? e.2 with
  | none => exact ⟨_, rfl, fun hmem => absurd hmem ((Dict.get?_eq_none_iff _ _).mp hseen), fun _ => ⟨rfl, rfl⟩⟩
  | some other =>
    refine ⟨_, rfl, fun _ => ⟨rfl, rfl⟩, fun hmem => ?_⟩
    rw [(Dict.get?_eq_none_iff _ _).mpr hmem] at hseen
    cases hseen

/-- **One entry.** -/
theorem validateEntry_reached {entries : List (String × String)} {st : Validation} {e : String × String}
    (hst : st.Reached digits cArgc rArgc entries) (hreadable : Readable digits e) :
    ∃ st', validateEntry digits cArgc rArgc st e = some st' ∧ st'.Reached digits cArgc rArgc (entries ++ [e]) := by
  by_cases h : Usable digits cArgc rArgc e
  · obtain ⟨st', hstep, hold, hnew⟩ := @validateEntry_usable _ _ _ st e h
    have hfilter : (entries ++ [e]).filter (Usable digits cArgc rArgc ·) =
        entries.filter (Usable digits cArgc rArgc ·) ++ [e] := by
      rw [List.filter_append, List.filter_cons_of_pos (by simpa using h), List.filter_nil]
    refine ⟨st', hstep, ?_⟩
    by_cases hseen : e.2 ∈ st.seen.keys
    · obtain ⟨hclean, hkeys⟩ := hold hseen
      have hbefore := (hst.seen e.2).mp hseen
      refine ⟨fun f => ?_, fun vs => ?_⟩
      · rw [hclean, hfilter, survives_snoc_seen hbefore]
        exact hst.clean f
      · rw [hkeys, hfilter, hst.seen]
        simp only [List.mem_append, List.mem_singleton, or_and_right, exists_or, exists_eq_left]
        constructor
        · exact .inl
        · rintro (hf | rfl)
          · exact hf
          · exact hbefore
    · obtain ⟨hclean, hkeys⟩ := hnew hseen
      have hbefore : ∀ f ∈ entries.filter (Usable digits cArgc rArgc ·), f.2 ≠ e.2 :=
        fun f hf hvalue => hseen ((hst.seen e.2).mpr ⟨f, hf, hvalue⟩)
      refine ⟨fun f => ?_, fun vs => ?_⟩
      · rw [hclean, hfilter, survives_snoc_new hbefore, Dict.mem_insert, hst.clean]
      · rw [hkeys, hfilter, Dict.mem_keys_insert, hst.seen]
        simp only [List.mem_append, List.mem_singleton, or_and_right, exists_or, exists_eq_left]
        exact or_comm.trans (or_congr_right eq_comm)
  · obtain ⟨st', hstep, hclean, hseen⟩ := @validateEntry_unusable _ _ _ st e hreadable h
    have hfilter : (entries ++ [e]).filter (Usable digits cArgc rArgc ·) =
        entries.filter (Usable digits cArgc rArgc ·) := by
      rw [List.filter_append, List.filter_cons_of_neg (by simpa using h), List.filter_nil, List.append_nil]
    exact ⟨st', hstep, fun f => by rw [hclean, hfilter]; exact hst.clean f,
      fun vs => by rw [hseen, hfilter]; exact hst.seen vs⟩

/-- An entry that cannot be read makes the check raise. -/
theorem validateEntry_unreadable {st : Validation} {e : String × String} (h : ¬ Readable digits e) :
    validateEntry digits cArgc rArgc st e = none := by
  obtain ⟨hdigits, hnot⟩ := Classical.not_imp.mp h
  unfold validateEntry
  simp only [hdigits.1, hdigits.2, Bool.not_true, Bool.or_self, Bool.false_eq_true, if_false]
  cases hk : digits.int e.1 with
  | none => rfl
  | some ki =>
    cases hv : digits.int e.2 with
    | none => rfl
    | some vi => exact absurd ⟨by rw [hk]; rfl, by rw [hv]; rfl⟩ hnot

/-- **All entries.** -/
theorem foldlM_validateEntry {entries : List (String × String)} :
    ∀ {done : List (String × String)} {st : Validation}, st.Reached digits cArgc rArgc done →
      (∀ e ∈ entries, Readable digits e) →
      ∃ st', entries.foldlM (validateEntry digits cArgc rArgc) st = some st' ∧
        st'.Reached digits cArgc rArgc (done ++ entries) := by
  induction entries with
  | nil =>
    intro done st hst _
    exact ⟨st, rfl, by rwa [List.append_nil]⟩
  | cons e entries ih =>
    intro done st hst h
    obtain ⟨st', hstep, hst'⟩ := validateEntry_reached hst (h e List.mem_cons_self)
    obtain ⟨last, hlast, hreached⟩ := ih hst' fun f hf => h f (List.mem_cons_of_mem e hf)
    refine ⟨last, ?_, by rwa [List.append_assoc] at hreached⟩
    rw [List.foldlM_cons, hstep]
    exact hlast

/-- If the loop gets to its end, every entry it saw could be read as two numbers. -/
theorem foldlM_unreadable {entries : List (String × String)} :
    ∀ {st st' : Validation}, entries.foldlM (validateEntry digits cArgc rArgc) st = some st' →
      ∀ e ∈ entries, Readable digits e := by
  induction entries with
  | nil => exact fun _ e he => absurd he List.not_mem_nil
  | cons e entries ih =>
    intro st st' h f hf
    rw [List.foldlM_cons] at h
    obtain ⟨mid, hmid, hrest⟩ := Option.bind_eq_some_iff.mp h
    rcases List.mem_cons.mp hf with rfl | hf
    · by_contra hnot
      rw [validateEntry_unreadable hnot] at hmid
      cases hmid
    · exact ih hrest f hf

/-- The state before the loop is the one reached by no entries. -/
theorem reached_start : (⟨Dict.empty, Dict.empty, []⟩ : Validation).Reached digits cArgc rArgc [] := by
  refine ⟨fun e => ?_, fun vs => ?_⟩
  · exact ⟨fun he => absurd he List.not_mem_nil, fun he => absurd he (survives_nil e)⟩
  · simp [Dict.empty, Dict.keys]

/-- What survives was an entry of the list. -/
theorem Survives.mem {entries : List (String × String)} {e : String × String} (h : Survives entries e) :
    e ∈ entries := by
  obtain ⟨before, after, rfl, -⟩ := h
  simp

end Kept

/-- **When the check works**: it raises for no object whose digits can all be read, and what it accepts is a
map of positions if and only if no two entries that stay have one position on either side. -/
theorem validateMapping_iff {V : Type*} (chars : CharClass) (digits : DigitClass) (str : V → String)
    (cArgc rArgc : Int) (mapping : Dict String V) :
    (∃ clean, validateMapping chars digits str cArgc rArgc (some mapping) = some clean ∧
        MapsPositions digits cArgc rArgc clean) ↔
      (∀ e ∈ mapping.entries.map (entryTexts chars str), Readable digits e) ∧
        ∀ e f, Survives ((mapping.entries.map (entryTexts chars str)).filter (Usable digits cArgc rArgc ·)) e →
          Survives ((mapping.entries.map (entryTexts chars str)).filter (Usable digits cArgc rArgc ·)) f →
          e ≠ f → digits.int e.1 ≠ digits.int f.1 ∧ digits.int e.2 ≠ digits.int f.2 := by
  constructor
  · rintro ⟨clean, hclean, hmaps⟩
    obtain ⟨st, hst, rfl⟩ := Option.map_eq_some_iff.mp hclean
    have hreadable := foldlM_unreadable hst
    obtain ⟨st', hst', hreached⟩ := @foldlM_validateEntry digits cArgc rArgc _ [] _
      reached_start hreadable
    obtain rfl := Option.some.inj (hst.symm.trans hst')
    refine ⟨hreadable, fun e f he hf hne => ?_⟩
    have he' := (hreached.clean e).mpr he
    have hf' := (hreached.clean f).mpr hf
    exact ⟨hmaps.keys e he' f hf' hne, hmaps.values e he' f hf' hne⟩
  · rintro ⟨hreadable, hdistinct⟩
    obtain ⟨st, hst, hreached⟩ := @foldlM_validateEntry digits cArgc rArgc _ [] _
      reached_start hreadable
    refine ⟨st.clean, Option.map_eq_some_iff.mpr ⟨st, hst, rfl⟩, ?_, ?_, ?_⟩
    · intro e he
      simpa using (List.mem_filter.mp ((hreached.clean e).mp he).mem).2
    · exact fun e he f hf hne => (hdistinct e f ((hreached.clean e).mp he) ((hreached.clean f).mp hf) hne).1
    · exact fun e he f hf hne => (hdistinct e f ((hreached.clean e).mp he) ((hreached.clean f).mp hf) hne).2

/-- Digits up to `ÿ`: the superscripts are digits that are not decimal. -/
def DigitClass.latin : DigitClass where
  isDigit c := c.isDigit || ['²', '³', '¹'].contains c
  decimal c := if c.isDigit then some (c.toNat - 48) else none
  limit := some 4300
  isDigit_ascii c h := by
    have hnot : ['²', '³', '¹'].contains c = false := by
      rw [List.contains_eq_mem, decide_eq_false_iff_not]
      intro hc
      simp only [List.mem_cons, List.not_mem_nil, or_false] at hc
      rcases hc with rfl | rfl | rfl <;> exact absurd h (by decide)
    rw [hnot, Bool.or_false]
  decimal_ascii _ _ := rfl
  isDigit_of_decimal c n h := by
    split at h
    · rename_i hdigit
      rw [hdigit, Bool.true_or]
    · cases h

/-- Two spellings of one position are both accepted, and a superscript makes the check raise. -/
theorem validateMapping_unsound :
    (∃ clean, validateMapping .ascii .latin id 2 2 (some ⟨[("1", "0"), ("01", "1")], by decide⟩) = some clean ∧
      ¬ MapsPositions .latin 2 2 clean) ∧
    validateMapping .ascii .latin id 2 2 (some ⟨[("0", "²")], by decide⟩) = none := by
  have hentries : (validateMapping .ascii .latin id 2 2
      (some ⟨[("1", "0"), ("01", "1")], by decide⟩)).map Dict.entries = some [("1", "0"), ("01", "1")] := by
    decide +kernel
  obtain ⟨clean, hclean, hkept⟩ := Option.map_eq_some_iff.mp hentries
  refine ⟨⟨clean, hclean, fun h => ?_⟩, ?_⟩
  · exact h.keys ("1", "0") (hkept ▸ by decide) ("01", "1") (hkept ▸ by decide) (by decide) (by decide +kernel)
  · have hraises : ((validateMapping .ascii .latin id 2 2 (some ⟨[("0", "²")], by decide⟩)).map
        Dict.entries) = none := by decide +kernel
    exact Option.map_eq_none_iff.mp hraises

end Assure
