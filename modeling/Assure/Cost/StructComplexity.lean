import Assure.Harness.ModuleTypes
import Assure.Library.Cycles
import Assure.Library.Recursion
import Mathlib.Data.List.TakeWhile

/-!
# How complicated a struct is

`isStructSimple` goes over the members of a struct and into the structs that they are or point to. A pointer to
the struct itself is passed over, and at a pointer to anything but a struct the walk is over. What it returns is
the greatest complexity in reach (`greatest_of_returns`), and it returns exactly if the walk comes to no struct
that leads back to itself (`isStructSimple_iff`): a pair of structs with pointers to each other does.

Both directions are proved for every finite table of structs. A recursion that does not return is
one for which no depth of calls is enough; the overflow of the stack that comes of it is not
modelled.
-/

namespace Assure

open Assure.Library Relation

/-- `StructComplication` -/
inductive StructComplication
  | t_simple
  | t_hasptr
  | t_complicated
  deriving DecidableEq

namespace StructComplication

/-- The number that the code has for it. -/
def toNat : StructComplication → Nat
  | .t_simple => 0
  | .t_hasptr => 1
  | .t_complicated => 2

/-- Different levels of complication have different numbers, so the levels are ordered by them. -/
theorem toNat_injective : Function.Injective toNat := by
  intro c c' h
  cases c <;> cases c' <;> first | rfl | cases h

instance : LinearOrder StructComplication := .lift' toNat toNat_injective

/-- Simple is the least level. -/
theorem simple_le (c : StructComplication) : t_simple ≤ c := Nat.zero_le c.toNat

/-- Complicated is the greatest level. -/
theorem le_complicated (c : StructComplication) : c ≤ t_complicated := by
  cases c <;> decide

/-- `if (result > out) out = result;` -/
def raise (out result : StructComplication) : StructComplication := if out < result then result else out

/-- Raising a level is taking the greater of two, which is what makes the result of a search
independent of its order. -/
theorem raise_eq_max (out result : StructComplication) : raise out result = max out result := by
  unfold raise
  split
  · rename_i hlt
    exact (max_eq_right hlt.le).symm
  · rename_i hle
    exact (max_eq_left (not_lt.mp hle)).symm

end StructComplication

open StructComplication

section

variable {σ : Type}

/-- A pointer to something else than a struct. -/
def isOtherPointer : LType σ → Bool
  | .ptr (.struct _) => false
  | .ptr _ => true
  | _ => false

variable [DecidableEq σ]

/-- The loop of `isStructSimple` over the members. -/
def elementsSimple (isStructSimple : σ → Option StructComplication) (stType : σ) :
    List (LType σ) → StructComplication → Option StructComplication
  | [], out => some out
  | .ptr (.struct inner) :: elements, out =>
    if inner ≠ stType then
      (isStructSimple inner).bind fun result =>
        elementsSimple isStructSimple stType elements (raise (raise out result) .t_hasptr)
    else elementsSimple isStructSimple stType elements out
  | .ptr _ :: _, _ => some .t_complicated
  | .struct inner :: elements, out =>
    (isStructSimple inner).bind fun result => elementsSimple isStructSimple stType elements (raise out result)
  | _ :: elements, out => elementsSimple isStructSimple stType elements out

variable (table : σ → List (LType σ))

/-- **`isStructSimple`**, with the calls that it makes. -/
def isStructSimple (call : σ → Option StructComplication) (stType : σ) : Option StructComplication :=
  elementsSimple call stType (table stType) .t_simple

/-! ## What is in reach -/

omit [DecidableEq σ] in
/-- A struct is a member of another one, or one of its members points to it. -/
def IsInside (s t : σ) : Prop := .struct t ∈ table s ∨ .ptr (.struct t) ∈ table s

/-- How complicated a struct is by one of its members. -/
def memberComplexity (s : σ) : LType σ → StructComplication
  | .ptr (.struct t) => if t = s then .t_simple else .t_hasptr
  | .ptr _ => .t_complicated
  | _ => .t_simple

/-- **How complicated a struct is by its own members.** -/
def ownComplexity (s : σ) : StructComplication :=
  (table s).foldr (fun element out => max (memberComplexity s element) out) .t_simple

/-- **The greatest complexity in reach.** -/
def IsComplexity (s : σ) (c : StructComplication) : Prop :=
  IsGreatest {own | ∃ t, ReflTransGen (IsInside table) s t ∧ own = ownComplexity table t} c

/-- What a struct amounts to by itself is the greatest of what its elements amount to. -/
theorem ownComplexity_le_iff {s : σ} {c : StructComplication} :
    ownComplexity table s ≤ c ↔ ∀ element ∈ table s, memberComplexity s element ≤ c := by
  unfold ownComplexity
  induction table s with
  | nil => exact iff_of_true (simple_le c) (List.forall_mem_nil _)
  | cons element elements ih => rw [List.foldr_cons, max_le_iff, List.forall_mem_cons, ih]

/-- No element amounts to more than the struct it is in. -/
theorem le_ownComplexity {s : σ} {element : LType σ} (h : element ∈ table s) :
    memberComplexity s element ≤ ownComplexity table s := (ownComplexity_le_iff table).mp le_rfl element h

/-! ## The calls -/

/-- **A call for a struct**: it is a member, or another one that a member points to, before the walk is over. -/
def CallsFor (s t : σ) (elements : List (LType σ)) : Prop :=
  let walked := elements.takeWhile fun element => !isOtherPointer element
  .struct t ∈ walked ∨ t ≠ s ∧ .ptr (.struct t) ∈ walked

/-- The structs that the walk at a struct goes into. -/
def GoesInto (s t : σ) : Prop := CallsFor s t (table s)

variable {table} {call : σ → Option StructComplication} {s : σ}

/-- Going through the elements of a struct needs the results of finitely many calls. -/
theorem determined_elements (s : σ) : ∀ (elements : List (LType σ)) (out : StructComplication),
    Determined fun call => elementsSimple call s elements out
  | [], _ => .const _
  | .ptr pointee :: elements, out => by
    have ih := determined_elements s elements
    cases pointee with
    | struct inner =>
      unfold elementsSimple
      split
      · exact (Determined.call inner).bind fun result => ih _
      · exact ih out
    | _ => exact .const _
  | .struct inner :: elements, out => (Determined.call inner).bind fun result => determined_elements s elements _
  | .int _ :: elements, out => determined_elements s elements out
  | .float _ :: elements, out => determined_elements s elements out
  | .function :: elements, out => determined_elements s elements out
  | .array _ _ :: elements, out => determined_elements s elements out

/-- So does one call of the search, which is what the recursion of the library asks for. -/
theorem determined_isStructSimple (s : σ) : Determined fun call => isStructSimple table call s :=
  determined_elements s (table s) .t_simple

omit [DecidableEq σ] in
/-- Without elements there is no call. -/
@[simp] theorem callsFor_nil {t : σ} : ¬ CallsFor s t [] := by
  simp [CallsFor]

omit [DecidableEq σ] in
/-- The calls for a list of elements: a pointer to something else than a struct ends the search, and
before it each struct and each pointer to another struct is called for. -/
theorem callsFor_cons {t : σ} {element : LType σ} {elements : List (LType σ)} :
    CallsFor s t (element :: elements) ↔ isOtherPointer element = false ∧
      ((.struct t = element ∨ t ≠ s ∧ .ptr (.struct t) = element) ∨ CallsFor s t elements) := by
  unfold CallsFor
  cases hother : isOtherPointer element with
  | true => simp [hother]
  | false =>
    simp only [List.takeWhile_cons, hother, Bool.not_false, if_true, List.mem_cons, true_and]
    tauto

/-- **The walk over the members is done** if the calls are. -/
theorem elementsSimple_isSome : ∀ (elements : List (LType σ)) (out : StructComplication),
    (elementsSimple call s elements out).isSome ↔ ∀ t, CallsFor s t elements → (call t).isSome
  | [], out => by simp [elementsSimple]
  | .struct inner :: elements, out => by
    have ih := elementsSimple_isSome elements
    have hcalls : ∀ t, CallsFor s t (.struct inner :: elements) ↔ t = inner ∨ CallsFor s t elements := by
      simp [callsFor_cons, isOtherPointer]
    simp only [hcalls, elementsSimple, or_imp, forall_and, forall_eq]
    cases call inner <;> simp [ih]
  | .ptr pointee :: elements, out => by
    have ih := elementsSimple_isSome elements
    cases pointee with
    | struct inner =>
      have hcalls : ∀ t, CallsFor s t (.ptr (.struct inner) :: elements) ↔
          t = inner ∧ inner ≠ s ∨ CallsFor s t elements := by
        simp only [callsFor_cons, isOtherPointer, LType.ptr.injEq, LType.struct.injEq, reduceCtorEq]
        grind
      simp only [hcalls, elementsSimple]
      split
      · rename_i hne
        simp only [hne, ne_eq, not_false_eq_true, and_true, or_imp, forall_and, forall_eq]
        cases call inner <;> simp [ih]
      · rename_i heq
        simp [ih, not_not.mp heq]
    | _ => simp [elementsSimple, callsFor_cons, isOtherPointer]
  | .int _ :: elements, out => by simp [elementsSimple, callsFor_cons, isOtherPointer, elementsSimple_isSome elements]
  | .float _ :: elements, out => by simp [elementsSimple, callsFor_cons, isOtherPointer, elementsSimple_isSome elements]
  | .function :: elements, out => by simp [elementsSimple, callsFor_cons, isOtherPointer,
      elementsSimple_isSome elements]
  | .array _ _ :: elements, out => by
    simp [elementsSimple, callsFor_cons, isOtherPointer, elementsSimple_isSome elements]

/-- **A struct's walk ends** exactly if the walks that it goes into do. -/
theorem terminates_isStructSimple_iff :
    Terminates (isStructSimple table) s ↔ Acc (fun t s => GoesInto table s t) s := by
  constructor
  · rintro ⟨result, hresult⟩
    refine Returns.induct (P := fun s _ => Acc (fun t s => GoesInto table s t) s) ?_ hresult
    intro call hcall s result hresult
    refine .intro s fun t ht => ?_
    have hsome := (elementsSimple_isSome _ _).mp (Option.isSome_of_eq_some hresult) t ht
    obtain ⟨inner, hinner⟩ := Option.isSome_iff_exists.mp hsome
    exact hcall t inner hinner
  · intro h
    induction h with
    | intro s _ ih =>
      refine terminates_of determined_isStructSimple fun call _ hterm => ?_
      exact (elementsSimple_isSome _ _).mpr fun t ht => hterm t (ih t ht)

/-! ## The result -/

/-- What the walk over the members makes of the results of the calls: it is not below them, and it is one of them. -/
structure Summary (call : σ → Option StructComplication) (s : σ) (elements : List (LType σ))
    (out result : StructComplication) : Prop where
  start : out ≤ result
  members : ∀ element ∈ elements, memberComplexity s element ≤ result
  calls : result = .t_complicated ∨ ∀ t, CallsFor s t elements → ∃ c, call t = some c ∧ c ≤ result
  walked : result = .t_complicated ∨ ∀ element ∈ elements, isOtherPointer element = false
  attained : result = out ∨ (∃ element ∈ elements, result = memberComplexity s element) ∨
    ∃ t, CallsFor s t elements ∧ call t = some result

/-- A pointer to something else than a struct is complicated. -/
theorem memberComplexity_other {element : LType σ} (h : isOtherPointer element = true) :
    memberComplexity s element = .t_complicated := by
  cases element with
  | ptr pointee => cases pointee <;> first | rfl | cases h
  | _ => cases h

/-- A member that raises the result by what it is itself and by the call for it. -/
theorem Summary.cons {element : LType σ} {elements : List (LType σ)} {out out' result : StructComplication}
    (hother : isOtherPointer element = false) (h : Summary call s elements out' result)
    (hout : out ≤ out') (hmember : memberComplexity s element ≤ out')
    (hcall : ∀ t, .struct t = element ∨ t ≠ s ∧ .ptr (.struct t) = element → ∃ c, call t = some c ∧ c ≤ out')
    (hattained : out' = out ∨ out' = memberComplexity s element ∨
      ∃ t, (.struct t = element ∨ t ≠ s ∧ .ptr (.struct t) = element) ∧ call t = some out') :
    Summary call s (element :: elements) out result where
  start := hout.trans h.start
  members := List.forall_mem_cons.mpr ⟨hmember.trans h.start, h.members⟩
  calls := h.calls.imp_right fun hcalls t ht => by
    rcases (callsFor_cons.mp ht).2 with hfirst | hrest
    · obtain ⟨c, hc, hle⟩ := hcall t hfirst
      exact ⟨c, hc, hle.trans h.start⟩
    · exact hcalls t hrest
  walked := h.walked.imp_right fun hwalked => List.forall_mem_cons.mpr ⟨hother, hwalked⟩
  attained := by
    rcases h.attained with rfl | ⟨member, hmem, rfl⟩ | ⟨t, ht, hresult⟩
    · rcases hattained with rfl | rfl | ⟨t, ht, hresult⟩
      · exact .inl rfl
      · exact .inr (.inl ⟨element, List.mem_cons_self, rfl⟩)
      · exact .inr (.inr ⟨t, callsFor_cons.mpr ⟨hother, .inl ht⟩, hresult⟩)
    · exact .inr (.inl ⟨member, List.mem_cons_of_mem _ hmem, rfl⟩)
    · exact .inr (.inr ⟨t, callsFor_cons.mpr ⟨hother, .inr ht⟩, hresult⟩)

/-- A member that has no part in the result. -/
theorem Summary.skip {element : LType σ} {elements : List (LType σ)} {out result : StructComplication}
    (hother : isOtherPointer element = false) (hmember : memberComplexity s element = .t_simple)
    (hcall : ∀ t, ¬ (.struct t = element ∨ t ≠ s ∧ .ptr (.struct t) = element))
    (h : Summary call s elements out result) : Summary call s (element :: elements) out result :=
  h.cons hother le_rfl (hmember ▸ simple_le out) (fun t ht => absurd ht (hcall t)) (.inl rfl)

/-- What going through the elements amounts to where it ends: the greatest of the level so far, of
the elements, and of what the calls gave. -/
theorem elementsSimple_summary : ∀ (elements : List (LType σ)) (out result : StructComplication),
    elementsSimple call s elements out = some result → Summary call s elements out result
  | [], out, result, h => by
    obtain rfl := Option.some.inj h
    exact ⟨le_rfl, List.forall_mem_nil _, .inr fun t ht => absurd ht callsFor_nil, .inr (List.forall_mem_nil _),
      .inl rfl⟩
  | .struct inner :: elements, out, result, h => by
    obtain ⟨c, hc, hrest⟩ := Option.bind_eq_some_iff.mp h
    have hsummary := elementsSimple_summary elements _ result hrest
    rw [raise_eq_max] at hsummary
    refine hsummary.cons rfl (le_max_left out c) (simple_le _) ?_ ?_
    · intro t ht
      obtain rfl : t = inner := by simpa using ht
      exact ⟨c, hc, le_max_right out c⟩
    · rcases max_choice out c with hout | hresult
      · exact .inl hout
      · exact .inr (.inr ⟨inner, .inl rfl, hc.trans (congrArg some hresult.symm)⟩)
  | .ptr pointee :: elements, out, result, h => by
    have ih := elementsSimple_summary elements
    cases pointee with
    | struct inner =>
      rw [elementsSimple] at h
      split at h
      · rename_i hne
        obtain ⟨c, hc, hrest⟩ := Option.bind_eq_some_iff.mp h
        have hsummary := ih _ result hrest
        have hmember : memberComplexity s (.ptr (.struct inner)) = .t_hasptr := if_neg hne
        rw [raise_eq_max, raise_eq_max] at hsummary
        refine hsummary.cons rfl ((le_max_left out c).trans (le_max_left _ _)) (hmember ▸ le_max_right _ _) ?_ ?_
        · intro t ht
          obtain ⟨-, rfl⟩ : t ≠ s ∧ t = inner := by simpa using ht
          exact ⟨c, hc, (le_max_right out c).trans (le_max_left _ _)⟩
        · rcases max_choice (max out c) .t_hasptr with hfirst | hptr
          · rcases max_choice out c with hout | hresult
            · exact .inl (hfirst.trans hout)
            · exact .inr (.inr ⟨inner, .inr ⟨hne, rfl⟩, by rw [hfirst, hresult, hc]⟩)
          · exact .inr (.inl (hptr.trans hmember.symm))
      · rename_i heq
        obtain rfl := not_not.mp heq
        refine (ih out result h).skip rfl (if_pos rfl) fun t ht => ?_
        simp at ht
    | _ =>
      obtain rfl := Option.some.inj h
      exact ⟨le_complicated out, fun element _ => le_complicated _, .inl rfl, .inl rfl,
        .inr (.inl ⟨_, List.mem_cons_self, (memberComplexity_other rfl).symm⟩)⟩
  | .int _ :: elements, out, result, h => (elementsSimple_summary elements out result h).skip rfl rfl (by simp)
  | .float _ :: elements, out, result, h => (elementsSimple_summary elements out result h).skip rfl rfl (by simp)
  | .function :: elements, out, result, h => (elementsSimple_summary elements out result h).skip rfl rfl (by simp)
  | .array _ _ :: elements, out, result, h => (elementsSimple_summary elements out result h).skip rfl rfl (by simp)

omit [DecidableEq σ] in
/-- Whatever is called for lies inside the struct. -/
theorem CallsFor.isInside {t : σ} (h : GoesInto table s t) : IsInside table s t := by
  rcases h with hmem | ⟨-, hmem⟩
  · exact .inl ((List.takeWhile_sublist _).mem hmem)
  · exact .inr ((List.takeWhile_sublist _).mem hmem)

/-- A struct inside is the struct itself or gone into, where the walk is not over before. -/
theorem IsInside.goesInto {t : σ} (h : IsInside table s t)
    (hwalked : ∀ element ∈ table s, isOtherPointer element = false) : t = s ∨ GoesInto table s t := by
  have hall : (table s).takeWhile (fun element => !isOtherPointer element) = table s := by
    refine List.takeWhile_eq_self_iff.mpr fun element hmem => ?_
    rw [hwalked element hmem]
    rfl
  by_cases hself : t = s
  · exact .inl hself
  · refine .inr ?_
    unfold GoesInto CallsFor
    rw [hall]
    exact h.imp_right fun hmem => ⟨hself, hmem⟩

/-- **What `isStructSimple` returns is the greatest complexity in reach.** -/
theorem greatest_of_returns {result : StructComplication} (h : Returns (isStructSimple table) s result) :
    IsComplexity table s result := by
  refine Returns.induct (P := IsComplexity table) ?_ h
  intro call hcall s result hresult
  have hsummary := elementsSimple_summary (table s) .t_simple result hresult
  have hown : ownComplexity table s ≤ result := (ownComplexity_le_iff table).mpr hsummary.members
  constructor
  · -- it is the struct's own, or a call's result
    rcases hsummary.attained with hsimple | ⟨element, hmem, hmember⟩ | ⟨t, ht, hc⟩
    · exact ⟨s, .refl, hsimple.trans (le_antisymm (simple_le _) (hsimple ▸ hown))⟩
    · exact ⟨s, .refl, le_antisymm (hmember ▸ le_ownComplexity table hmem) hown⟩
    · obtain ⟨u, hu, hresult⟩ := (hcall t result hc).1
      exact ⟨u, .head (CallsFor.isInside ht) hu, hresult⟩
  · rintro _ ⟨t, ht, rfl⟩
    rcases hsummary.walked with rfl | hwalked
    · exact le_complicated _
    rcases hsummary.calls with rfl | hcalls
    · exact le_complicated _
    -- every struct in reach is the struct itself or in reach of a call
    have hreach : t = s ∨ ∃ u c, call u = some c ∧ c ≤ result ∧ ReflTransGen (IsInside table) u t := by
      induction ht with
      | refl => exact .inl rfl
      | tail _ hinside ih =>
        rcases ih with rfl | ⟨u, c, hc, hle, hu⟩
        · rcases hinside.goesInto hwalked with rfl | hgoes
          · exact .inl rfl
          · obtain ⟨c, hc, hle⟩ := hcalls _ hgoes
            exact .inr ⟨_, c, hc, hle, .refl⟩
        · exact .inr ⟨u, c, hc, hle, hu.tail hinside⟩
    rcases hreach with rfl | ⟨u, c, hc, hle, hu⟩
    · exact hown
    · exact ((hcall u c hc).2 ⟨t, hu, rfl⟩).trans hle

/-- **`isStructSimple` returns the greatest complexity in reach exactly if the walk comes to no struct that leads
back to itself.** -/
theorem isStructSimple_iff [Fintype σ] :
    (∃ result, Returns (isStructSimple table) s result ∧ IsComplexity table s result) ↔
      ∀ t, ReflTransGen (GoesInto table) s t → ¬ TransGen (GoesInto table) t t := by
  rw [← acc_iff_acyclic, ← terminates_isStructSimple_iff]
  constructor
  · rintro ⟨result, hresult, -⟩
    exact ⟨result, hresult⟩
  · rintro ⟨result, hresult⟩
    exact ⟨result, hresult, greatest_of_returns hresult⟩

end

/-- Two structs with a pointer to each other. -/
def eachOther (s : Bool) : List (LType Bool) := [.ptr (.struct !s)]

/-- **The walk over two such structs does not end.** -/
theorem isStructSimple_eachOther : ¬ ∃ result, Returns (isStructSimple eachOther) false result ∧
    IsComplexity eachOther false result := by
  rintro ⟨result, hresult, -⟩
  refine not_terminates (P := fun _ => True) ?_ trivial ⟨result, hresult⟩
  intro call s _ hnone
  cases s <;> exact congrArg (Option.bind · _) (hnone _ trivial)

end Assure
