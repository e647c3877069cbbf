import Assure.Types.UnionLifting
import Assure.Library.Numerals
import Mathlib.Data.List.Nodup

/-!
# When anonymous unions are lifted right

`IsLifted` is compared with what the code makes of a struct, by the number of unions first: the code lifts no union in
a union, and none with a comment before its brace. Where the numbers agree, the characters that are no blanks are
counted, which shows that nothing is left of the declarators. Names are compared last.

The equivalence is for members whose comments and literals hold no brace
(`StructMember.WellFormed`). That the loop ends is proved for every text.
-/

namespace Assure

open Assure.Library
open StructMember

section

variable {chars : CharClass} {structName : List Char}

namespace StructMember

mutual

/-- Two conditions that hold at every level hold together at every level. -/
theorem everywhere_and {P P' : List CToken → List StructMember → Declared → Prop} {Q Q' : List StructMember → Prop} :
    ∀ {member : StructMember}, Everywhere P Q member → Everywhere P' Q' member →
      Everywhere (fun gap members declared => P gap members declared ∧ P' gap members declared)
        (fun members => Q members ∧ Q' members) member
  | .plain _ _, _, _ => trivial
  | .nested _ _ _ _, h, h' => ⟨allEverywhere_and h.1 h'.1, h.2, h'.2⟩
  | .union _ _ _ _ _, h, h' => ⟨h, h'⟩

/-- The same for several members. -/
theorem allEverywhere_and {P P' : List CToken → List StructMember → Declared → Prop} {Q Q' : List StructMember → Prop} :
    ∀ {members : List StructMember}, AllEverywhere P Q members → AllEverywhere P' Q' members →
      AllEverywhere (fun gap members declared => P gap members declared ∧ P' gap members declared)
        (fun members => Q members ∧ Q' members) members
  | [], _, _ => trivial
  | _ :: _, h, h' => ⟨everywhere_and h.1 h'.1, allEverywhere_and h.2 h'.2⟩

end

mutual

/-- A condition at every level may be weakened. -/
theorem Everywhere.imp {P P' : List CToken → List StructMember → Declared → Prop} {Q Q' : List StructMember → Prop}
    (hP : ∀ gap members declared, P gap members declared → P' gap members declared)
      (hQ : ∀ members, Q members → Q' members) :
    ∀ {member : StructMember}, Everywhere P Q member → Everywhere P' Q' member
  | .plain _ _, _ => trivial
  | .nested _ _ _ _, h => ⟨AllEverywhere.imp hP hQ h.1, hQ _ h.2⟩
  | .union _ _ _ _ _, h => hP _ _ _ h

/-- The same for several members. -/
theorem AllEverywhere.imp {P P' : List CToken → List StructMember → Declared → Prop} {Q Q' : List StructMember → Prop}
    (hP : ∀ gap members declared, P gap members declared → P' gap members declared)
      (hQ : ∀ members, Q members → Q' members) :
    ∀ {members : List StructMember}, AllEverywhere P Q members → AllEverywhere P' Q' members
  | [], _ => trivial
  | _ :: _, h => ⟨Everywhere.imp hP hQ h.1, AllEverywhere.imp hP hQ h.2⟩

end

end StructMember

/-! ## The number of unions -/

/-- As many unions are lifted as there are. -/
theorem Lifts.length {members members' : List StructMember} {unions : List (List Char × List Char)}
    (h : Lifts chars members members' unions) : unions.length = unionsIn members := by
  induction h with
  | nil => rfl
  | plain _ ih =>
    rw [unionsIn, unionCount, Nat.zero_add]
    exact ih
  | nested _ _ hinner ih =>
    rw [List.length_append, unionsIn, unionCount, hinner, ih]
  | union _ _ _ _ hinner ih =>
    rw [List.length_cons, List.length_append, unionsIn, unionCount, hinner, ih]
    omega

variable (chars) in
/-- The unions that the code finds. -/
abbrev Found (gap : List CToken) (members : List StructMember) (_ : Declared) : Prop :=
  onlyBlanks chars gap = true ∧ unionsIn members = 0

mutual

/-- **The code finds all unions only where none is in another one** and none has a comment before its brace. -/
theorem outcome_found : ∀ (member : StructMember) (n : Nat),
    (outcome chars structName n member).2.length ≤ unionCount member ∧
      ((outcome chars structName n member).2.length = unionCount member →
        Everywhere (Found chars) (fun _ => True) member)
  | .plain _ _, _ => ⟨Nat.zero_le _, fun _ => trivial⟩
  | .nested front members trailing declared, n => by
    obtain ⟨hle, heq⟩ := outcomes_found members n
    rw [outcome, unionCount]
    exact ⟨hle, fun h => ⟨heq h, trivial⟩⟩
  | .union front gap members trailing declared, n => by
    obtain ⟨hle, -⟩ := outcomes_found members n
    rw [outcome, unionCount]
    split
    · rename_i hblanks
      refine ⟨Nat.le_add_left _ _, fun h => ⟨hblanks, ?_⟩⟩
      rw [List.length_singleton] at h
      omega
    · refine ⟨Nat.le_succ_of_le hle, fun h => ?_⟩
      dsimp only at h
      omega

/-- The loop finds no more unions than there are, and finds all of them only where each is written
so that it can be found. -/
theorem outcomes_found : ∀ (members : List StructMember) (n : Nat),
    (outcomes chars structName n members).2.length ≤ unionsIn members ∧
      ((outcomes chars structName n members).2.length = unionsIn members →
        AllEverywhere (Found chars) (fun _ => True) members)
  | [], _ => ⟨Nat.le_refl 0, fun _ => trivial⟩
  | member :: members, n => by
    obtain ⟨hle, heq⟩ := outcome_found member n
    obtain ⟨hle', heq'⟩ := outcomes_found members (n + (outcome chars structName n member).2.length)
    rw [outcomes, followedBy, List.length_append, unionsIn]
    exact ⟨Nat.add_le_add hle hle', fun h => ⟨heq (by omega), heq' (by omega)⟩⟩

end

/-! ## The number of characters -/

variable (chars) in
/-- One character. -/
def markCount (c : Char) : Nat := if chars.space c then 0 else 1

/-- The empty text has nothing. -/
theorem nonblanks_nil : nonblanks chars [] = 0 := rfl

/-- A character counts unless it is a blank. -/
theorem nonblanks_cons (c : Char) (text : List Char) :
    nonblanks chars (c :: text) = markCount chars c + nonblanks chars text := by
  rw [nonblanks, nonblanks, List.countP_cons, markCount, Nat.add_comm]
  cases chars.space c <;> rfl

/-- A blank does not count. -/
theorem markCount_blank : markCount chars ' ' = 0 := if_pos (chars.space_ascii _ (by decide))

section

variable (chars)

mutual

/-- **The characters of a member that are no blanks** once its unions are lifted, but for their new names. -/
def weight : StructMember → Nat
  | .plain front declared => nonblanks chars front + (nonblanks chars declared.text + nonblanks chars [';'])
  | .nested front members trailing declared => nonblanks chars front + (nonblanks chars ['\x7b'] + (weights members +
      (nonblanks chars trailing + (nonblanks chars ['\x7d'] +
        (nonblanks chars declared.text + nonblanks chars [';'])))))
  | .union front _ _ _ declared => nonblanks chars front + (keptCount chars declared + nonblanks chars [';'])

/-- The same for several members. -/
def weights : List StructMember → Nat
  | [] => 0
  | member :: members => weight member + weights members

end

/-- The characters of the names. -/
def nameWeight : List (List Char × List Char) → Nat
  | [] => 0
  | (name, _) :: unions => nonblanks chars name + nameWeight unions

end

/-- The names of two rows of unions weigh what both weigh. -/
theorem nameWeight_append (unions' : List (List Char × List Char)) : ∀ unions : List (List Char × List Char),
    nameWeight chars (unions ++ unions') = nameWeight chars unions + nameWeight chars unions'
  | [] => (Nat.zero_add _).symm
  | (name, _) :: unions => by
    rw [List.cons_append, nameWeight, nameWeight, nameWeight_append unions' unions, Nat.add_assoc]

/-- Their order does not matter. -/
theorem nameWeight_perm {unions unions' : List (List Char × List Char)} (h : unions.Perm unions') :
    nameWeight chars unions = nameWeight chars unions' := by
  induction h with
  | nil => rfl
  | cons _ _ ih => rw [nameWeight, nameWeight, ih]
  | swap _ _ unions => rw [nameWeight, nameWeight, nameWeight, nameWeight, Nat.add_left_comm]
  | trans _ _ ih ih' => exact ih.trans ih'

/-- What the lifted members weigh: the members, and the names of the unions. -/
theorem Lifts.weight {members members' : List StructMember} {unions : List (List Char × List Char)}
    (h : Lifts chars members members' unions) (hfound : AllEverywhere (Found chars) (fun _ => True) members) :
    nonblanks chars (textOf members') = weights chars members + nameWeight chars unions := by
  induction h with
  | nil => rfl
  | plain _ ih =>
    have ih := ih hfound.2
    rw [textOf, weights, StructMember.text, Assure.weight]
    simp only [nonblanks_append, ih]
    omega
  | nested _ _ hinner ih =>
    have hinner := hinner hfound.1.1
    have ih := ih hfound.2
    rw [textOf, weights, StructMember.text, Assure.weight, nameWeight_append]
    simp only [nonblanks_append, nonblanks_cons, nonblanks_nil, hinner, ih]
    omega
  | @union front trailing gap declared declared' inner inner' members members' unions unions' name hkeeps hlifts _ _ ih =>
    have ih := ih hfound.2
    obtain rfl : unions = [] := List.eq_nil_of_length_eq_zero (hlifts.length.trans hfound.1.2)
    have hname : nameWeight chars ((name, unionDefinition name (textOf inner' ++ trailing)) :: ([] ++ unions')) =
        nonblanks chars name + nameWeight chars unions' := rfl
    rw [textOf, weights, StructMember.text, Assure.weight, hname]
    simp only [nonblanks_append, hkeeps.nonblanks, nonblanks_cons, nonblanks_nil, markCount_blank, ih]
    omega

mutual

/-- **The code leaves no fewer characters**, and no more only where it has read all declarators. -/
theorem outcome_weight : ∀ {member : StructMember} {n : Nat}, member.WellFormed chars →
    Everywhere (Found chars) (fun _ => True) member →
      Assure.weight chars member + nameWeight chars (outcome chars structName n member).2 ≤
          nonblanks chars (outcome chars structName n member).1 ∧
        (Assure.weight chars member + nameWeight chars (outcome chars structName n member).2 =
            nonblanks chars (outcome chars structName n member).1 →
          Everywhere (fun _ _ declared => declared.IsPlain chars) (fun _ => True) member)
  | .plain front declared, n, _, _ => by
    refine ⟨?_, fun _ => trivial⟩
    rw [outcome, Assure.weight]
    simp only [nonblanks_append]
    exact Nat.le_refl _
  | .nested front members trailing declared, n, h, hfound => by
    obtain ⟨hle, heq⟩ := outcomes_weight (n := n) h.2.1.1 hfound.1
    rw [outcome, Assure.weight]
    simp only [nonblanks_append, nonblanks_cons, nonblanks_nil]
    exact ⟨by omega, fun hsame => ⟨heq (by omega), trivial⟩⟩
  | .union front gap members trailing declared, n, h, hfound => by
    obtain ⟨hle, heq⟩ := h.2.2.2.keptCount_le
    have hname : ∀ name definition : List Char, nameWeight chars [(name, definition)] = nonblanks chars name :=
      fun name definition => Nat.add_zero _
    rw [outcome, if_pos hfound.1, Assure.weight]
    dsimp only
    rw [hname]
    simp only [nonblanks_append, nonblanks_cons, nonblanks_nil, markCount_blank]
    exact ⟨by omega, fun hsame => heq (by omega)⟩

/-- The outcome weighs no less, and just as much only where nothing was left over. This is what a
wrong outcome is told by. -/
theorem outcomes_weight : ∀ {members : List StructMember} {n : Nat}, AllWellFormed chars members →
    AllEverywhere (Found chars) (fun _ => True) members →
      weights chars members + nameWeight chars (outcomes chars structName n members).2 ≤
          nonblanks chars (outcomes chars structName n members).1 ∧
        (weights chars members + nameWeight chars (outcomes chars structName n members).2 =
            nonblanks chars (outcomes chars structName n members).1 →
          AllEverywhere (fun _ _ declared => declared.IsPlain chars) (fun _ => True) members)
  | [], _, _, _ => ⟨Nat.le_refl 0, fun _ => trivial⟩
  | member :: members, n, h, hfound => by
    obtain ⟨hle, heq⟩ := outcome_weight (n := n) h.1 hfound.1
    obtain ⟨hle', heq'⟩ := outcomes_weight
      (n := n + (outcome chars structName n member).2.length) h.2 hfound.2
    rw [outcomes, followedBy, weights, nameWeight_append, nonblanks_append]
    exact ⟨by omega, fun hsame => ⟨heq (by omega), heq' (by omega)⟩⟩

end

/-! ## Names -/

/-- **A lifted union without a name is called `u`.** -/
theorem Lifts.count_names {members members' : List StructMember} {unions : List (List Char × List Char)}
    (h : Lifts chars members members' unions) (name : List Char) : (memberNames members').count name =
      (memberNames members).count name + if name = ['u'] then members.countP isUnnamed else 0 := by
  have hcons : ∀ (member : StructMember) (members : List StructMember),
      (memberNames (member :: members)).count name = member.declared.names.count name +
        (memberNames members).count name :=
    fun member members => by rw [memberNames, List.flatMap_cons, List.count_append]; rfl
  induction h with
  | nil => simp [memberNames]
  | plain _ ih => rw [hcons, hcons, ih, List.countP_cons_of_neg (by exact Bool.false_ne_true), ← Nat.add_assoc]
  | nested _ _ _ ih =>
    rw [hcons, hcons, ih, List.countP_cons_of_neg (by exact Bool.false_ne_true), ← Nat.add_assoc]
    rfl
  | @union front trailing gap declared declared' inner inner' members members' unions unions' unionName hkeeps _ _ _ ih =>
    have hnames := hkeeps.names
    rw [hcons, hcons, ih]
    cases declared with
    | unnamed gap =>
      have hu : (StructMember.plain (front ++ (unionName ++ [' '])) declared').declared.names = [['u']] := hnames
      rw [List.countP_cons_of_pos rfl, hu, List.count_singleton]
      show _ = (0 + (memberNames members).count name) + _
      by_cases hname : name = ['u']
      · rw [if_pos hname, if_pos hname, if_pos (beq_iff_eq.mpr hname.symm)]
        omega
      · rw [if_neg hname, if_neg hname, if_neg fun hbeq => hname (beq_iff_eq.mp hbeq).symm]
        omega
    | named first more =>
      rw [List.countP_cons_of_neg (by exact Bool.false_ne_true), ← Nat.add_assoc]
      have hsame : (StructMember.plain (front ++ (unionName ++ [' '])) declared').declared.names =
        (Declared.named first more).names := hnames
      rw [hsame]
      rfl

/-- Of the members of a struct that come out only one is called `u`. -/
theorem Lifts.one_u {members members' : List StructMember} {unions : List (List Char × List Char)}
    (h : Lifts chars members members' unions) (hformed : AllWellFormed chars members') :
    AllEverywhere (fun _ _ _ => True)
      (fun members => members.countP isUnnamed + (memberNames members).count ['u'] ≤ 1) members := by
  induction h with
  | nil => trivial
  | plain _ ih => exact ⟨trivial, ih hformed.2⟩
  | nested hinner _ ihinner ih =>
    refine ⟨⟨ihinner hformed.1.2.1.1, ?_⟩, ih hformed.2⟩
    have hcount := List.nodup_iff_count_le_one.mp hformed.1.2.1.2 ['u']
    rw [hinner.count_names, if_pos rfl] at hcount
    omega
  | union _ _ _ _ _ ih => exact ⟨trivial, ih hformed.2⟩

/-- **What comes out right is `Liftable`.** -/
theorem IsLifted.liftable {member : StructMember} (h : member.WellFormed chars)
    (hlifted : IsLifted chars member (outcome chars structName 0 member)) : member.Liftable chars := by
  obtain ⟨member', unions, hlifts, hformed, htext, hperm, -⟩ := hlifted
  have hlength : (outcome chars structName 0 member).2.length = unionCount member := by
    rw [hperm.length_eq, hlifts.length, unionsIn, unionsIn, Nat.add_zero]
  have hfound := (outcome_found member 0).2 hlength
  have hweight := hlifts.weight ⟨hfound, trivial⟩
  have hsame : weight chars member + nameWeight chars (outcome chars structName 0 member).2 =
      nonblanks chars (outcome chars structName 0 member).1 := by
    rw [textOf, textOf, List.append_nil, weights, weights, Nat.add_zero] at hweight
    rw [htext, hweight, nameWeight_perm hperm]
  have hplain := (outcome_weight h hfound).2 hsame
  have hnames := (hlifts.one_u ⟨hformed, trivial⟩).1
  refine (everywhere_and hfound (everywhere_and hplain hnames)).imp ?_ ?_
  · rintro gap members declared ⟨⟨hblanks, hnone⟩, hplain, -⟩
    exact ⟨List.all_eq_true.mp hblanks, hnone, hplain⟩
  · rintro members ⟨-, -, hcount⟩
    exact hcount

/-! ## What comes out right -/

section

variable (chars) (structName)

mutual

/-- **The struct that the code makes** where it lifts right. -/
def rewritten : Nat → StructMember → StructMember
  | _, .plain front declared => .plain front declared
  | n, .nested front members trailing declared => .nested front (rewrittens n members) trailing declared
  | n, .union front _ _ _ declared =>
    .plain (front ++ (unionName structName (n + 1) ++ [' '])) (.named ⟨[], liftedName declared, []⟩ [])

/-- The same for several members. -/
def rewrittens : Nat → List StructMember → List StructMember
  | _, [] => []
  | n, member :: members =>
    rewritten n member :: rewrittens (n + (outcome chars structName n member).2.length) members

end

end

/-- Members are lifted one after the other. -/
theorem Lifts.cons {member member' : StructMember} {members members' : List StructMember}
    {unions unions' : List (List Char × List Char)} (h : Lifts chars [member] [member'] unions)
    (h' : Lifts chars members members' unions') : Lifts chars (member :: members) (member' :: members')
      (unions ++ unions') := by
  cases h with
  | plain hnil =>
    cases hnil
    exact .plain h'
  | nested hinner hnil =>
    cases hnil
    rw [List.append_nil]
    exact .nested hinner h'
  | union name hkeeps hinner hnil =>
    cases hnil
    rw [List.append_nil]
    exact .union name hkeeps hinner h'

mutual

/-- Without unions nothing is to be lifted. -/
theorem lifts_self : ∀ {member : StructMember}, unionCount member = 0 → Lifts chars [member] [member] []
  | .plain _ _, _ => .plain .nil
  | .nested _ _ _ _, h => .nested (lifts_selves h) .nil
  | .union _ _ _ _ _, h => absurd h (Nat.succ_ne_zero _)

/-- Members without unions are lifted to themselves. -/
theorem lifts_selves : ∀ {members : List StructMember}, unionsIn members = 0 → Lifts chars members members []
  | [], _ => .nil
  | member :: members, h => by
    rw [unionsIn] at h
    exact (lifts_self (by omega)).cons (lifts_selves (by omega))

end

/-- A name with blanks around it is trimmed to the name. -/
theorem trimmedText_name {before name after : List Char} (hbefore : ∀ c ∈ before, chars.space c = true)
    (hname : ∀ c ∈ name, isNameChar c = true) (hne : name ≠ []) (hafter : ∀ c ∈ after, chars.space c = true) :
    trimmedText chars (before ++ (name ++ after)) = name := by
  have hdrop : ∀ text more : List Char, (∀ c ∈ text, isNameChar c = true) → text ≠ [] →
      (text ++ more).dropWhile chars.space = text ++ more := by
    intro text more htext hne
    obtain ⟨c, text, rfl⟩ := List.exists_cons_of_ne_nil hne
    rw [List.cons_append, List.dropWhile_cons_of_neg]
    rw [space_of_isNameChar (htext c List.mem_cons_self)]
    exact Bool.false_ne_true
  have hreverse : ∀ c ∈ name.reverse, isNameChar c = true := fun c hc => hname c (List.mem_reverse.mp hc)
  have hback := hdrop name.reverse [] hreverse (by simpa using hne)
  rw [List.append_nil] at hback
  rw [trimmedText, List.dropWhile_append_of_pos hbefore, hdrop name after hname hne, List.reverse_append,
    List.dropWhile_append_of_pos (fun c hc => hafter c (List.mem_reverse.mp hc)), hback, List.reverse_reverse]

/-- The name of a lifted union is a word. -/
theorem Declared.WellFormed.liftedName_word {declared : Declared} (h : declared.WellFormed chars) :
    (liftedName declared).head?.any isNameStart = true ∧ (∀ c ∈ liftedName declared, isNameChar c = true) ∧
      liftedName declared ≠ [] := by
  cases declared with
  | unnamed gap =>
    refine ⟨rfl, fun c hc => ?_, List.cons_ne_nil _ _⟩
    rw [List.mem_singleton.mp hc]
    decide
  | named first more =>
    obtain ⟨hstart, hword, -⟩ := h first List.mem_cons_self
    refine ⟨hstart, hword, fun hnil => ?_⟩
    have hnil : first.name = [] := hnil
    rw [hnil] at hstart
    cases hstart

/-- A single name is its own text. -/
theorem Declared.text_name (name : List Char) : (Declared.named ⟨[], name, []⟩ []).text = name := by
  rw [Declared.text, Declarator.text, List.flatMap_nil, List.append_nil, List.append_nil, List.nil_append]

/-- A plain name is kept. -/
theorem Declared.IsPlain.keeps {declared : Declared} (hplain : declared.IsPlain chars) (h : declared.WellFormed chars) :
    KeepsDeclared chars declared (.named ⟨[], liftedName declared, []⟩ []) := by
  obtain ⟨-, hword, hne⟩ := h.liftedName_word
  have hname : trimmedText chars (liftedName declared) = liftedName declared := by
    have htrim : trimmedText chars ([] ++ (liftedName declared ++ [])) = liftedName declared :=
      trimmedText_name (by simp) hword hne (by simp)
    rwa [List.append_nil, List.nil_append] at htrim
  cases declared with
  | unnamed gap =>
    refine ⟨rfl, ?_⟩
    rw [Declared.text_name]
    exact hname
  | named first more =>
    obtain ⟨rfl, hbefore, hafter⟩ := hplain
    refine ⟨rfl, ?_⟩
    rw [Declared.text_name]
    refine hname.trans ?_
    show first.name = trimmedText chars (first.text ++ [])
    rw [List.append_nil, Declarator.text]
    exact (trimmedText_name hbefore hword hne hafter).symm

/-- A lifted name is well formed again, so the result can be lifted once more. -/
theorem Declared.WellFormed.lifted {declared : Declared} (h : declared.WellFormed chars) :
    (Declared.named ⟨[], liftedName declared, []⟩ []).WellFormed chars := by
  obtain ⟨hstart, hword, -⟩ := h.liftedName_word
  intro d hd
  rw [List.mem_singleton.mp hd]
  exact ⟨hstart, hword, rfl, rfl, by simp, by simp⟩

/-- The name of a union is a word. -/
theorem unionName_word (hname : ∀ c ∈ structName, isNameChar c = true) (counter : Nat) :
    ∀ c ∈ unionName structName counter, isNameChar c = true := by
  intro c hc
  rcases List.mem_append.mp hc with hc | hc
  · rcases List.mem_append.mp hc with hc | hc
    · exact hname c hc
    · exact List.all_eq_true.mp (show ("Union".toList.all isNameChar) = true by decide) c hc
  · split at hc
    · cases hc
    · have hdigit := repr_isDigit counter c hc
      exact Bool.or_eq_true_iff.mpr (.inl (Bool.or_eq_true_iff.mpr (.inr hdigit)))

/-- **Different unions have different names.** -/
theorem unionName_inj {i j : Nat} (h : unionName structName i = unionName structName j) : i = j := by
  have hdigits := List.append_cancel_left h
  have hne : ∀ n : Nat, (Nat.repr n).toList ≠ [] := by
    intro n hnil
    rw [Nat.toList_repr] at hnil
    exact Nat.toDigits_ne_nil hnil
  split at hdigits
  · split at hdigits
    · omega
    · exact absurd hdigits.symm (hne j)
  · split at hdigits
    · exact absurd hdigits (hne i)
    · exact repr_inj hdigits

mutual

/-- The rewritten member lifts the unions of the member, and its text is the outcome of the loop. -/
theorem rewritten_spec : ∀ {member : StructMember} {n : Nat}, member.WellFormed chars → member.Liftable chars →
    Lifts chars [member] [rewritten chars structName n member] (outcome chars structName n member).2 ∧
      (rewritten chars structName n member).text = (outcome chars structName n member).1
  | .plain front declared, n, _, _ => ⟨.plain .nil, rfl⟩
  | .nested front members trailing declared, n, h, hlift => by
    obtain ⟨hlifts, htext⟩ := rewrittens_spec (n := n) h.2.1.1 hlift.1
    rw [rewritten, outcome, StructMember.text, htext]
    refine ⟨?_, rfl⟩
    have hall : Lifts chars [.nested front members trailing declared] [_] (_ ++ []) := .nested hlifts .nil
    rwa [List.append_nil] at hall
  | .union front gap members trailing declared, n, h, ⟨hblanks, hnone, hplain⟩ => by
    have hread := hplain.readDeclared h.2.2.2
    have honly : onlyBlanks chars gap = true := List.all_eq_true.mpr hblanks
    rw [rewritten, outcome, if_pos honly, StructMember.text]
    dsimp only
    rw [hread]
    refine ⟨?_, ?_⟩
    · exact Lifts.union _ (hplain.keeps h.2.2.2) (lifts_selves hnone) .nil
    · simp [Declared.text, Declarator.text, leftOver]

/-- The same for several members. -/
theorem rewrittens_spec : ∀ {members : List StructMember} {n : Nat}, AllWellFormed chars members →
    AllEverywhere (fun gap members declared => (∀ c ∈ CToken.textOf gap, chars.space c = true) ∧ unionsIn members = 0 ∧
        declared.IsPlain chars)
      (fun members => members.countP isUnnamed + (memberNames members).count ['u'] ≤ 1) members →
    Lifts chars members (rewrittens chars structName n members) (outcomes chars structName n members).2 ∧
      textOf (rewrittens chars structName n members) = (outcomes chars structName n members).1
  | [], _, _, _ => ⟨.nil, rfl⟩
  | member :: members, n, h, hlift => by
    obtain ⟨hlifts, htext⟩ := rewritten_spec (n := n) h.1 hlift.1
    obtain ⟨hlifts', htext'⟩ := rewrittens_spec (n := n + (outcome chars structName n member).2.length) h.2 hlift.2
    rw [rewrittens, outcomes, textOf, htext, htext', followedBy]
    exact ⟨hlifts.cons hlifts', rfl⟩

end

mutual

/-- The rewritten member is well formed. -/
theorem rewritten_wellFormed (hname : ∀ c ∈ structName, isNameChar c = true) : ∀ {member : StructMember} {n : Nat},
    member.WellFormed chars → member.Liftable chars → (rewritten chars structName n member).WellFormed chars
  | .plain front declared, n, h, _ => h
  | .nested front members trailing declared, n, h, hlift => by
    refine ⟨h.1, ⟨rewrittens_wellFormed hname h.2.1.1 hlift.1, ?_⟩, h.2.2⟩
    rw [List.nodup_iff_count_le_one]
    intro name
    have hcount := List.nodup_iff_count_le_one.mp h.2.1.2 name
    have hone : members.countP isUnnamed + (memberNames members).count ['u'] ≤ 1 := hlift.2
    rw [(rewrittens_spec h.2.1.1 hlift.1).1.count_names]
    split
    · rename_i hu
      rw [hu]
      omega
    · exact hcount
  | .union front gap members trailing declared, n, h, hlift => by
    refine ⟨braceFree_append h.1.1 fun c hc => ?_, h.2.2.2.lifted⟩
    rcases List.mem_append.mp hc with hc | hc
    · have hword := unionName_word hname (n + 1) c hc
      refine ⟨?_, ?_⟩ <;> rintro rfl <;> revert hword <;> decide
    · rw [List.mem_singleton.mp hc]
      decide

/-- So are several. -/
theorem rewrittens_wellFormed (hname : ∀ c ∈ structName, isNameChar c = true) :
    ∀ {members : List StructMember} {n : Nat},
    AllWellFormed chars members →
    AllEverywhere (fun gap members declared => (∀ c ∈ CToken.textOf gap, chars.space c = true) ∧ unionsIn members = 0 ∧
        declared.IsPlain chars)
      (fun members => members.countP isUnnamed + (memberNames members).count ['u'] ≤ 1) members →
    AllWellFormed chars (rewrittens chars structName n members)
  | [], _, _, _ => trivial
  | _ :: _, _, h, hlift => ⟨rewritten_wellFormed hname h.1 hlift.1, rewrittens_wellFormed hname h.2 hlift.2⟩

end

mutual

/-- The unions get the numbers that follow, in order. -/
theorem outcome_names : ∀ (member : StructMember) (n : Nat), (outcome chars structName n member).2.map Prod.fst =
    (List.range' (n + 1) (outcome chars structName n member).2.length).map (unionName structName)
  | .plain _ _, _ => rfl
  | .nested front members trailing declared, n => by
    rw [outcome]
    exact outcomes_names members n
  | .union front gap members trailing declared, n => by
    rw [outcome]
    split
    · rfl
    · exact outcomes_names members n

/-- The same for several members. -/
theorem outcomes_names : ∀ (members : List StructMember) (n : Nat),
    (outcomes chars structName n members).2.map Prod.fst =
    (List.range' (n + 1) (outcomes chars structName n members).2.length).map (unionName structName)
  | [], _ => rfl
  | member :: members, n => by
    rw [outcomes, followedBy, List.map_append, outcome_names member n, outcomes_names, List.length_append,
      ← List.map_append, Nat.add_right_comm n, List.range'_append_1]

end

/-- So no two unions get one name. -/
theorem outcome_names_nodup (member : StructMember) :
    ((outcome chars structName 0 member).2.map Prod.fst).Nodup := by
  rw [outcome_names]
  exact (List.nodup_range' 1).map fun i j h => unionName_inj h

/-- **Anonymous unions are lifted right exactly from structs that are `Liftable`**; the loop ends for every text. The
members are those whose text is well formed, that is, whose comments and literals hold no braces and end in nothing
that reads as `union`. -/
theorem liftAnonymousUnions_iff (chars : CharClass) (structName : List Char) (hne : structName ≠ [])
    (hname : ∀ c ∈ structName, isNameChar c = true) :
    (∀ text, (liftAnonymousUnions chars structName text).isSome) ∧
      ∀ member : StructMember, member.WellFormed chars →
        ∃ out, liftAnonymousUnions chars structName member.text = some out ∧
          (IsLifted chars member out ↔ member.Liftable chars) := by
  refine ⟨liftAnonymousUnions_isSome, fun member h => ⟨_, liftAnonymousUnions_text hne h, IsLifted.liftable h, ?_⟩⟩
  intro hlift
  obtain ⟨hlifts, htext⟩ := @rewritten_spec chars structName member 0 h hlift
  exact ⟨_, _, hlifts, rewritten_wellFormed hname h hlift, htext.symm, .refl _, outcome_names_nodup member⟩

end

/-- A blank. -/
theorem isGap_blank {mark : Char} (hmark : (CToken.code mark).WellFormed) (hslash : mark ≠ '/') :
    IsGap .ascii [.code ' '] mark := by
  have hblank : (CToken.code ' ').WellFormed := by
    show ' ' ≠ '"' ∧ ' ' ≠ '\''
    decide
  refine ⟨⟨hblank, fun h => absurd h (by decide), hmark, fun h => absurd h hslash, trivial⟩, ?_, ?_, ?_, ?_⟩
  · intro token htoken c hc
    rw [List.mem_singleton.mp htoken] at hc
    rw [← CToken.code.inj hc]
    decide
  · intro token htoken quote pieces hliteral
    rw [List.mem_singleton.mp htoken] at hliteral
    cases hliteral
  · intro c hc
    rw [List.mem_singleton.mp hc]
    decide
  · intro start blanks htext
    have hu : 'u' ∈ CToken.textOf [.code ' '] := by
      rw [htext]
      exact List.mem_append_right _ (List.mem_append_left _ (by decide))
    exact absurd hu (by decide)

/-- A name. -/
theorem wellFormed_name {name : List Char} (hstart : name.head?.any isNameStart = true)
    (hword : (name.all isNameChar) = true) (before : List Char) (hbefore : before.getLast?.any isNameChar = false)
    (hfree : (before.all fun c => c != '\x7b' && c != '\x7d' && c != ';') = true) :
    (Declared.named ⟨before, name, []⟩ []).WellFormed .ascii := by
  intro d hd
  rw [List.mem_singleton.mp hd]
  refine ⟨hstart, List.all_eq_true.mp hword, hbefore, rfl, fun c hc => ?_, by simp⟩
  have hc := List.all_eq_true.mp hfree c hc
  simpa [and_assoc] using hc

/-- `struct S \x7bint k;union \x7bint a;\x7d v;union \x7bint b;\x7d ;\x7d ;`, if that is what the declarators are. -/
def twoUnions (before : List Char) : StructMember :=
  .nested "struct S ".toList
    [.plain "int ".toList (.named ⟨[], ['k'], []⟩ []),
      .union [] [.code ' '] [.plain "int ".toList (.named ⟨[], ['a'], []⟩ [])] [] (.named ⟨before, ['v'], []⟩ []),
      .union [] [.code ' '] [.plain "int ".toList (.named ⟨[], ['b'], []⟩ [])] [] (.unnamed [.code ' '])]
    [] (.unnamed [.code ' '])

/-- The struct of the example is well formed, whatever stands in front. -/
theorem twoUnions_wellFormed {before : List Char} (hbefore : before.getLast?.any isNameChar = false)
    (hfree : (before.all fun c => c != '\x7b' && c != '\x7d' && c != ';') = true) :
    (twoUnions before).WellFormed .ascii := by
  have hfront : ∀ {text : List Char}, (text.all fun c => c != '\x7b' && c != '\x7d') = true → BraceFree text :=
    fun h c hc => by simpa using List.all_eq_true.mp h c hc
  have hplain : ∀ name : Char, isNameStart name = true →
      (StructMember.plain "int ".toList (.named ⟨[], [name], []⟩ [])).WellFormed .ascii := fun name hname =>
    ⟨hfront (by decide), wellFormed_name (by exact hname) (by simp [isNameChar_of_start hname]) [] rfl rfl⟩
  have hmark : (CToken.code ';').WellFormed ∧ (CToken.code '\x7b').WellFormed := by
    show (';' ≠ '"' ∧ ';' ≠ '\'') ∧ '\x7b' ≠ '"' ∧ '\x7b' ≠ '\''
    decide
  have hnames : ([['k'], ['v']] : List (List Char)).Nodup := by decide
  refine ⟨⟨hfront (by decide), fun start blanks htext => ?_⟩, ⟨⟨hplain 'k' rfl, ?_, ?_, trivial⟩, hnames⟩,
    hfront (by decide), isGap_blank hmark.1 (by decide)⟩
  · have hn : 'n' ∈ "struct S ".toList := by
      rw [htext]
      exact List.mem_append_right _ (List.mem_append_left _ (by decide))
    exact absurd hn (by decide)
  · exact ⟨⟨hfront rfl, rfl, isGap_blank hmark.2 (by decide)⟩, ⟨⟨hplain 'a' rfl, trivial⟩, by decide⟩, hfront rfl,
      wellFormed_name rfl rfl before hbefore hfree⟩
  · exact ⟨⟨hfront rfl, rfl, isGap_blank hmark.2 (by decide)⟩, ⟨⟨hplain 'b' rfl, trivial⟩, by decide⟩, hfront rfl,
      isGap_blank hmark.1 (by decide)⟩

/-- The theorem at a struct with two unions. -/
theorem liftAnonymousUnions_twoUnions :
    ∃ out, liftAnonymousUnions .ascii ['S'] (twoUnions []).text = some out ∧ IsLifted .ascii (twoUnions []) out := by
  have hname : ∀ c ∈ ['S'], isNameChar c = true := List.forall_mem_singleton.mpr rfl
  have hblank : ∀ c ∈ [' '], CharClass.ascii.space c = true := List.forall_mem_singleton.mpr rfl
  obtain ⟨out, hout, hiff⟩ := (liftAnonymousUnions_iff .ascii ['S'] (List.cons_ne_nil _ _) hname).2 (twoUnions [])
    (twoUnions_wellFormed rfl rfl)
  refine ⟨out, hout, hiff.mpr ⟨⟨trivial, ⟨hblank, rfl, rfl, ?_, ?_⟩, ⟨hblank, rfl, hblank⟩, trivial⟩, by decide⟩⟩
  · exact List.forall_mem_nil _
  · exact List.forall_mem_nil _

/-- A pointer: the star and the name are left behind the member `u`. -/
theorem liftAnonymousUnions_pointer :
    liftAnonymousUnions .ascii ['S'] (twoUnions ['*']).text = some
        ("struct S \x7bint k;SUnion u;*v;SUnion2 u;\x7d ;".toList,
          [("SUnion".toList, "union SUnion \x7bint a;\x7d;".toList),
            ("SUnion2".toList, "union SUnion2 \x7bint b;\x7d;".toList)]) ∧
      (twoUnions ['*']).WellFormed .ascii ∧
      ¬ ∃ out, liftAnonymousUnions .ascii ['S'] (twoUnions ['*']).text = some out ∧
        IsLifted .ascii (twoUnions ['*']) out := by
  have hformed : (twoUnions ['*']).WellFormed .ascii := twoUnions_wellFormed (by decide) (by decide)
  refine ⟨by decide +kernel, hformed, ?_⟩
  rintro ⟨out, hout, hlifted⟩
  rw [liftAnonymousUnions_text (by decide) hformed] at hout
  rw [← Option.some.inj hout] at hlifted
  obtain ⟨⟨-, ⟨-, -, -, hbefore, -⟩, -⟩, -⟩ := hlifted.liftable hformed
  exact absurd (hbefore '*' (by decide)) (by decide)

end Assure
