import Assure.Comparison.MatchNodes
import Mathlib.Logic.Equiv.Defs

/-!
# The argument map in the comparison

`argument_order_map.json` says which Rust argument a C argument became. `matchesArgument_iff` says
when the matcher lets the one stand for the other: their labels are the same text, or the compared
directories are theirs, or the map sends the last digit of the one to the last digit of the other.
The first looks past the map and the third past all but one digit of the positions, so the matcher
respects no map but the identity, and that on ten arguments at most (`respects_iff`).

The equivalence is for maps of any number of arguments. It is about bare arguments; the fields of an
argument are not looked at here.
-/

namespace Assure

open Assure.Library Assure.Library.Pattern

/-! ## The compared directories -/

/-- The directory of an argument's value, or of what it points to. -/
def Comparison.NamesArgument (cmp : Comparison) (directoryName : String) (i : Nat) : Prop :=
  directoryName = cmp.functionName ++ "/" ++ argumentLabel i ∨
    directoryName = cmp.functionName ++ "/" ++ ("*(" ++ argumentLabel i ++ ")")

instance (cmp : Comparison) (directoryName : String) (i : Nat) :
    Decidable (cmp.NamesArgument directoryName i) :=
  inferInstanceAs (Decidable (_ ∨ _))

/-- The two directories are those of C argument `i` and Rust argument `j`. -/
def Comparison.PairsArguments (cmp : Comparison) (i j : Nat) : Prop :=
  cmp.NamesArgument cmp.cDirectoryName i ∧ cmp.NamesArgument cmp.rustDirectoryName j

instance (cmp : Comparison) (i j : Nat) : Decidable (cmp.PairsArguments i j) :=
  inferInstanceAs (Decidable (_ ∧ _))

/-- Only the label itself and the label in `*(…)` normalise to a label. -/
theorem normalize_eq_argumentLabel {s : String} {i : Nat} :
    normalize s = argumentLabel i ↔
      s = argumentLabel i ∨ s = "*(" ++ argumentLabel i ++ ")" := by
  have hstart : ¬ "*(".toList <+: (argumentLabel i).toList := by
    intro h
    obtain ⟨tail, htail⟩ := h
    rw [argumentLabel_toList] at htail
    have hhead := congrArg List.head? htail
    simp at hhead
  constructor
  · intro h
    unfold normalize at h
    split at h
    · rename_i hpointer
      obtain ⟨⟨t, ht⟩, init, hinit⟩ := hpointer
      right
      rw [← String.toList_inj] at h ⊢
      rw [String.toList_ofList, ← ht, List.drop_left' (by decide)] at h
      -- the closing bracket is not the opening one
      rcases List.eq_nil_or_concat t with rfl | ⟨inner, last, rfl⟩
      · rw [← ht] at hinit
        have hlast := congrArg List.getLast? hinit
        simp at hlast
      · rw [← ht] at hinit
        have hlast := congrArg List.getLast? hinit
        simp only [List.getLast?_append] at hlast
        simp at hlast
        subst hlast
        rw [List.concat_eq_append, List.dropLast_concat] at h
        subst h
        simp [← ht]
    · exact .inl h
  · intro h
    rcases h with rfl | rfl
    · unfold normalize
      rw [if_neg fun hpointer => hstart hpointer.1]
    · have hpointer : "*(".toList <+: ("*(" ++ argumentLabel i ++ ")").toList ∧
          ")".toList <:+ ("*(" ++ argumentLabel i ++ ")").toList := by
        simp only [String.toList_append]
        exact ⟨⟨_, (List.append_assoc _ _ _).symm⟩, ⟨_, rfl⟩⟩
      unfold normalize
      rw [if_pos hpointer, ← String.toList_inj, String.toList_ofList, String.toList_append,
        String.toList_append, List.append_assoc, List.drop_left' (by decide)]
      exact List.dropLast_concat

/-- The directory's argument, read off as the matcher does. -/
theorem namesArgument_iff (cmp : Comparison) {directoryName : String} {i : Nat} :
    cmp.NamesArgument directoryName i ↔
      ∃ name, cmp.afterPrefix directoryName = some name ∧ argumentLabel i = normalize name := by
  have happend : ∀ name : String, cmp.afterPrefix directoryName = some name ↔
      directoryName = cmp.functionName ++ "/" ++ name := by
    intro name
    unfold Comparison.afterPrefix
    dsimp only
    constructor
    · intro h
      split at h
      · rename_i hstart
        obtain ⟨t, ht⟩ := hstart
        cases h
        rw [← String.toList_inj, String.toList_append, String.toList_ofList, ← ht, List.drop_left]
      · cases h
    · intro h
      subst h
      have hsplit : (cmp.functionName ++ "/" ++ name).toList =
          (cmp.functionName ++ "/").toList ++ name.toList := String.toList_append
      rw [hsplit, if_pos (List.prefix_append _ _), List.drop_left, String.ofList_toList]
  constructor
  · intro h
    rcases h with h | h
    · exact ⟨_, (happend _).mpr h, (normalize_eq_argumentLabel.mpr (.inl rfl)).symm⟩
    · exact ⟨_, (happend _).mpr h, (normalize_eq_argumentLabel.mpr (.inr rfl)).symm⟩
  · intro h
    obtain ⟨name, hname, hlabel⟩ := h
    have hdirectory := (happend name).mp hname
    rcases normalize_eq_argumentLabel.mp hlabel.symm with rfl | rfl
    · exact .inl hdirectory
    · exact .inr hdirectory

/-! ## Two argument labels -/

/-- No argument label is among labels that do not start like one. -/
theorem spellings_argumentLabel {labels : List String}
    (h : ∀ l ∈ labels, ¬ "arg_value_".toList <+: l.toList) (i : Nat) (label2 : String) :
    Comparison.spellings labels (argumentLabel i) label2 = false := by
  have hnot : labels.contains (argumentLabel i) = false := by
    rw [List.contains_eq_mem, decide_eq_false_iff_not]
    intro hmem
    apply h _ hmem
    rw [argumentLabel_toList]
    exact List.prefix_append _ _
  unfold Comparison.spellings
  rw [hnot, Bool.false_and]

/-- On argument labels the directories decide `process_argument_name`. -/
theorem processArgumentName_argumentLabel (cmp : Comparison) (i j : Nat) :
    (if cmp.cIsTarget then cmp.processArgumentName (argumentLabel i) (argumentLabel j)
      else cmp.processArgumentName (argumentLabel j) (argumentLabel i)) = true ↔
      cmp.PairsArguments i j := by
  unfold Comparison.PairsArguments Comparison.processArgumentName
  rw [namesArgument_iff, namesArgument_iff]
  simp only [fullmatch_argumentFieldPattern, Bool.and_true, if_true]
  cases cmp.afterPrefix cmp.cDirectoryName with
  | none => simp
  | some cArgumentName =>
    cases cmp.afterPrefix cmp.rustDirectoryName with
    | none => simp
    | some rustArgumentName => cases cmp.cIsTarget <;> simp [and_comm]

/-- On argument labels the last digits decide `special_handle_map`. -/
theorem specialHandleMap_argumentLabel (cmp : Comparison) (targetFieldMap : Dict String String)
    (i j : Nat) :
    (if cmp.cIsTarget then
        cmp.specialHandleMap targetFieldMap (argumentLabel i) (argumentLabel j)
      else cmp.specialHandleMap targetFieldMap (argumentLabel j) (argumentLabel i)) = true ↔
      (targetFieldMap.get? (i % 10).repr).map firstToken = some (j % 10).repr := by
  unfold Comparison.specialHandleMap
  simp only [fullmatch_argumentPattern, lastCharacter_argumentLabel, Bool.and_true, if_true]
  cases targetFieldMap.get? (i % 10).repr with
  | none => cases cmp.cIsTarget <;> simp
  | some v =>
    have hindex : ((j % 10).repr == firstToken v) = true ↔
        (some v).map firstToken = some (j % 10).repr := by
      rw [beq_iff_eq, Option.map_some, Option.some.injEq]
      exact eq_comm
    cases cmp.cIsTarget <;> exact hindex

/-- **When the matcher lets C argument `i` stand for Rust argument `j`.** -/
theorem matchesArgument_iff (cmp : Comparison) {targetFieldMap : Dict String String}
    (hmap : cmp.fieldMap.get? cmp.functionName = some targetFieldMap) (i j : Nat) :
    cmp.matchesArgument i j = true ↔ cmp.onlyConsiderStruct = true ∨ i = j ∨
      cmp.PairsArguments i j ∨
      (targetFieldMap.get? (i % 10).repr).map firstToken = some (j % 10).repr := by
  rw [← processArgumentName_argumentLabel, ← specialHandleMap_argumentLabel cmp]
  -- the spellings shared by the two languages are no argument labels
  have hbranches : ∀ a b : Nat, cmp.matchNodes (argumentLabel a) (argumentLabel b) = true ↔
      cmp.onlyConsiderStruct = true ∨ a = b ∨
        cmp.processArgumentName (argumentLabel a) (argumentLabel b) = true ∨
        cmp.specialHandleMap targetFieldMap (argumentLabel a) (argumentLabel b) = true := by
    intro a b
    unfold Comparison.matchNodes
    rw [hmap, spellings_argumentLabel (by decide), spellings_argumentLabel (by decide),
      spellings_argumentLabel (by decide), spellings_argumentLabel (by decide),
      spellings_argumentLabel (by decide)]
    simp only [argumentLabel_inj]
    by_cases hstruct : cmp.onlyConsiderStruct = true
    · simp [hstruct]
    by_cases hab : a = b
    · simp [hab]
    by_cases hname : cmp.processArgumentName (argumentLabel a) (argumentLabel b) = true
    · simp [hname]
    · simp [hstruct, hab, hname]
  unfold Comparison.matchesArgument
  cases cmp.cIsTarget with
  | true =>
    simp only [if_true]
    exact hbranches i j
  | false =>
    simp only [Bool.false_eq_true, if_false]
    rw [hbranches j i, eq_comm (a := j)]

/-! ## Maps of the arguments -/

section ArgumentMap

variable {n : Nat}

/-- The argument map of the function records `m`. -/
def Comparison.Records (cmp : Comparison) (m : Equiv.Perm (Fin n)) : Prop :=
  ∃ targetFieldMap, cmp.fieldMap.get? cmp.functionName = some targetFieldMap ∧
    ∀ i : Fin n, (targetFieldMap.get? i.val.repr).map firstToken = some (m i).val.repr

/-- **The matcher respects `m`**: in both directions it lets C argument `i` stand for Rust argument `j`
exactly when `m` sends `i` to `j`. -/
def Comparison.Respects (cmp : Comparison) (m : Equiv.Perm (Fin n)) : Prop :=
  ∀ (i j : Fin n) (cIsTarget : Bool),
    { cmp with cIsTarget := cIsTarget }.matchesArgument i j = true ↔ j = m i

/-- **The only maps the matcher respects**: the identity on at most ten arguments, where no two
different arguments are compared by their directories and labels count at all. -/
theorem respects_iff (cmp : Comparison) (m : Equiv.Perm (Fin n)) (hrecords : cmp.Records m) :
    cmp.Respects m ↔ m = Equiv.refl (Fin n) ∧ n ≤ 10 ∧
      (∀ i j : Fin n, i ≠ j → ¬ cmp.PairsArguments i j) ∧
      (cmp.onlyConsiderStruct = true → n ≤ 1) := by
  obtain ⟨targetFieldMap, hmap, hentries⟩ := hrecords
  have hmatches : ∀ (i j : Fin n) (cIsTarget : Bool),
      { cmp with cIsTarget := cIsTarget }.matchesArgument i j = true ↔
        cmp.onlyConsiderStruct = true ∨ i.val = j.val ∨ cmp.PairsArguments i j ∨
        (targetFieldMap.get? (i.val % 10).repr).map firstToken = some (j.val % 10).repr :=
    fun i j cIsTarget => matchesArgument_iff { cmp with cIsTarget := cIsTarget } hmap i j
  unfold Comparison.Respects
  simp only [hmatches]
  constructor
  · intro h
    -- equal positions always match
    have hfix : ∀ i, m i = i := fun i => ((h i i true).mp (.inr (.inl rfl))).symm
    refine ⟨Equiv.ext hfix, ?_, ?_, ?_⟩
    · by_contra hn
      -- the labels of arguments 0 and 10 end alike
      obtain ⟨zero, hzero⟩ : ∃ i : Fin n, i.val = 0 := ⟨⟨0, by omega⟩, rfl⟩
      obtain ⟨ten, hten⟩ : ∃ i : Fin n, i.val = 10 := ⟨⟨10, by omega⟩, rfl⟩
      have hentry := hentries zero
      rw [hfix, hzero] at hentry
      have hmatch : ten = m zero := by
        apply (h zero ten true).mp
        rw [hzero, hten]
        exact .inr (.inr (.inr hentry))
      have hvals := congrArg Fin.val hmatch
      rw [hfix, hzero, hten] at hvals
      cases hvals
    · intro i j hij hpairs
      have hji := (h i j true).mp (.inr (.inr (.inl hpairs)))
      rw [hfix] at hji
      exact hij hji.symm
    · intro hstruct
      by_contra hn
      have hone := (h ⟨0, by omega⟩ ⟨1, by omega⟩ true).mp (.inl hstruct)
      rw [hfix] at hone
      cases hone
  · intro h i j _
    obtain ⟨rfl, hn, hpairs, hstruct⟩ := h
    show _ ↔ j = i
    constructor
    · intro hmatch
      rcases hmatch with hyes | hij | hnames | hdigits
      · have hle := hstruct hyes
        exact Fin.ext (by omega)
      · exact Fin.ext hij.symm
      · by_contra hij
        exact hpairs i j (Ne.symm hij) hnames
      · rw [Nat.mod_eq_of_lt (by omega), Nat.mod_eq_of_lt (by omega), hentries i] at hdigits
        have hlabels : argumentLabel j.val = argumentLabel i.val := by
          rw [argumentLabel, argumentLabel, ← Option.some.inj hdigits]
          rfl
        exact Fin.ext (argumentLabel_inj.mp hlabels)
    · intro hji
      exact .inr (.inl (congrArg Fin.val hji).symm)

end ArgumentMap

/-! ## Small maps -/

/-- The text of a map on the first positions. -/
def recorded (m : List (String × String)) (nodup : (m.map Prod.fst).Nodup) : Comparison where
  charClass := .ascii
  fieldMap := ⟨[("f", ⟨m, nodup⟩)], by simp⟩
  functionName := "f"
  cIsTarget := true
  cDirectoryName := "f/ret_value"
  rustDirectoryName := "f/ret_value"
  onlyConsiderStruct := false

/-- The theorem at three arguments that are not renamed at all, where the recorded map respects the
identity. -/
theorem respects_iff_three : (recorded [("0", "0"), ("1", "1"), ("2", "2")] (by decide)).Respects
    (Equiv.refl (Fin 3)) := by
  apply (respects_iff _ _ ⟨_, rfl, by decide +kernel⟩).mpr
  exact ⟨rfl, by decide, by decide +kernel, fun h => nomatch h⟩

/-- With the arguments swapped the matcher still lets argument 0 stand for argument 0; with eleven
arguments left in place it lets argument 0 stand for argument 10. -/
theorem respects_not : ¬ (recorded [("0", "1"), ("1", "0")] (by decide)).Respects
      (Equiv.swap (0 : Fin 2) 1) ∧
    ¬ (recorded ((List.range 11).map fun i => (i.repr, i.repr)) (by decide +kernel)).Respects
      (Equiv.refl (Fin 11)) := by
  constructor
  · intro h
    have hzero := h 0 0 true
    revert hzero
    decide +kernel
  · intro h
    have hten := h 0 10 true
    revert hten
    decide +kernel

end Assure
