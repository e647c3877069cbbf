import Assure.Harness.Signature
import Assure.Library.Cycles

/-!
# When the dump ends

The guard of the dump counts the pointers to structs, and what it counts stays counted (`dump_keeps`); a
recorded buffer is taken once for each path, and paths get longer. So the dump goes on for ever exactly
where structs lead back to themselves through other fields (`DumpStep`): pointers to pointers and arrays
that hold pointers.

Proved is when calls return, for every record of buffers. What they print is not compared with
anything here.
-/

namespace Assure

open Assure.Library

section

variable {σ : Type} [DecidableEq σ] {M : Module σ} {D : DumpContext σ}

/-! ## What becomes of a field, and of a pointer -/

/-- **A field is passed over, taken from a buffer, or gone into**, whatever the calls return. -/
inductive FieldWalk (D : DumpContext σ) (visited : Finset σ) (type : LType σ) (path : String)
    (walk : (DumpCall σ → Option (Dumped σ)) → Option (Dumped σ)) : Prop
  | ended (prints : List (Print σ)) (h : ∀ call, walk call = some (visited, prints))
  | taken (buffer : Buffer σ) (label : String) (slot : Place σ) (hasLength : Bool)
    (hbuffer : D.leafBuffers path = some buffer)
    (h : ∀ call, walk call = printTaken call visited buffer label path slot hasLength)
  | into (label : String) (place : Place σ) (hasLength : Bool)
    (h : ∀ call, walk call = call ⟨visited, type, label, path, place, hasLength⟩)

/-- Printing the value of a field is a walk of the described kind. -/
theorem fieldWalk_value (s : σ) (label path : String) (place : Place σ) (visited : Finset σ) (i : Nat)
    (type : LType σ) : FieldWalk D visited type (fieldName path i)
      fun call => printValueField M D call s label path place visited i type := by
  unfold printValueField
  dsimp only
  split
  · split
    · rename_i buffer hbuffer
      refine .taken buffer _ _ _ ?_ fun _ => rfl
      exact (Option.ite_none_right_eq_some.mp hbuffer).2
    · split
      · exact .ended _ fun _ => rfl
      · exact .into _ _ _ fun _ => rfl
  · exact .ended _ fun _ => rfl

/-- So is printing a field whose pointer was converted. -/
theorem fieldWalk_converted (s : σ) (label path : String) (place : Place σ) (hasLength : Bool)
    (visited : Finset σ) (i : Nat) (type converted : LType σ) :
    FieldWalk D visited (.ptr converted) (fieldName path i) fun call =>
      printConverted D call s label path place hasLength visited i type converted := by
  unfold printConverted
  dsimp only
  split
  · rename_i buffer hbuffer
    refine .taken buffer _ _ _ ?_ fun _ => rfl
    exact (Option.ite_none_right_eq_some.mp hbuffer).2
  · generalize ((_ : Bool) && D.underBoundary path) = isOver
    cases isOver
    · exact .into _ _ _ fun _ => rfl
    · exact .ended _ fun _ => rfl

/-- What a pointer leads to, through pointers. -/
def LType.bottom : LType σ → LType σ
  | .ptr pointee => pointee.bottom
  | type => type

variable (M) in
/-- **The struct that a dump comes to** behind a pointer, from which a pointer to a system struct is not
followed if it is no pointer to a pointer. -/
def dumpArrival : Bool → LType σ → Option σ
  | checked, .struct s => if checked && M.isSystemStruct s then none else some s
  | _, .ptr pointee => dumpArrival false pointee
  | _, .array 0 (.struct s) => some s
  | _, .array 0 (.array _ element) => dumpArrival true element
  | _, .array 0 _ => none
  | _, .array (_ + 1) element => dumpArrival true element
  | _, _ => none

variable (M) (D) in
/-- **A pointer is printed, goes on to the first element of an array, or leads to a struct**, whatever the
calls return. -/
inductive PointerWalk (visited : Finset σ) (type : LType σ) (path : String) (hasLength : Bool)
    (walk : (DumpCall σ → Option (Dumped σ)) → Option (Dumped σ)) : Prop
  | ends (prints : List (Print σ)) (harrival : dumpArrival M true type = none)
    (h : ∀ call, walk call = some (visited, prints))
  | element (element : LType σ) (label : String) (place : Place σ)
    (harrival : dumpArrival M true type = dumpArrival M true element) (hsize : sizeOf element < sizeOf type)
    (h : ∀ call, walk call = call ⟨visited, .ptr element, label, path ++ "[0]", place, hasLength⟩)
  | fields (s : σ) (label : String) (place : Place σ) (harrival : dumpArrival M true type = some s)
    (h : ∀ call, walk call =
      printFields (printField M D call s label path place hasLength) visited 0 (M.fields s))

omit [DecidableEq σ] in
/-- Loading through pointers ends at what the last of them points to. -/
theorem loadPointers_fst : ∀ (type : LType σ) (label : String) (place : Place σ),
    (loadPointers (.ptr type) label place).1 = .ptr type.bottom
  | .ptr pointee, _, _ => loadPointers_fst pointee _ _
  | .int _, _, _ => rfl
  | .float _, _, _ => rfl
  | .function, _, _ => rfl
  | .array _ _, _, _ => rfl
  | .struct _, _, _ => rfl

omit [DecidableEq σ] in
/-- What lies under all pointers is no pointer. -/
theorem LType.bottom_ne_ptr : ∀ type pointee : LType σ, type.bottom ≠ .ptr pointee
  | .ptr inner, pointee => bottom_ne_ptr inner pointee
  | .int _, _ => nofun
  | .float _, _ => nofun
  | .function, _ => nofun
  | .array _ _, _ => nofun
  | .struct _, _ => nofun

omit [DecidableEq σ] in
/-- An array is gone into with its type checked. -/
theorem dumpArrival_array (checked : Bool) (size : Nat) (element : LType σ) :
    dumpArrival M checked (.array size element) = dumpArrival M true (.array size element) := by
  cases size with
  | zero => cases element <;> rfl
  | succ size => rfl

omit [DecidableEq σ] in
/-- Where the walk arrives does not depend on how many pointers lie above. -/
theorem dumpArrival_bottom : ∀ type : LType σ,
    dumpArrival M false type = dumpArrival M false type.bottom
  | .ptr pointee => dumpArrival_bottom pointee
  | .int _ => rfl
  | .float _ => rfl
  | .function => rfl
  | .array _ _ => rfl
  | .struct _ => rfl

omit [DecidableEq σ] in
/-- For a type that is not of the system the check makes no difference. -/
theorem dumpArrival_unchecked (type : LType σ) (hsystem : ¬ type.struct?.any M.isSystemStruct) :
    dumpArrival M true type = dumpArrival M false type.bottom := by
  rw [← dumpArrival_bottom]
  cases type with
  | struct s =>
    rw [dumpArrival, dumpArrival, Bool.true_and, Bool.false_and]
    exact if_neg hsystem
  | array size element => exact (dumpArrival_array false size element).symm
  | _ => rfl

omit [DecidableEq σ] in
/-- A type with nothing inside leads nowhere. -/
theorem dumpArrival_of_not_nested {type : LType σ} (h : ¬ type.isNested) : dumpArrival M true type = none := by
  cases type with
  | ptr pointee => exact absurd rfl h
  | struct s => exact absurd rfl h
  | array size element => exact absurd rfl h
  | _ => rfl

omit [DecidableEq σ] in
/-- What lies under the pointers is no larger than the type. -/
theorem LType.sizeOf_bottom_le : ∀ type : LType σ, sizeOf type.bottom ≤ sizeOf type
  | .ptr pointee => (sizeOf_bottom_le pointee).trans (by simp)
  | .int _ => Nat.le_refl _
  | .float _ => Nat.le_refl _
  | .function => Nat.le_refl _
  | .array _ _ => Nat.le_refl _
  | .struct _ => Nat.le_refl _

omit [DecidableEq σ] in
/-- Recovering a lost level of pointers leaves a pointer, and adds a level only to a pointer to
characters. -/
theorem recoverLevel_ptr (rustType : Option String) (type : LType σ) :
    recoverLevel rustType (.ptr type) = .ptr type ∨
      (type = .int 8 ∧ recoverLevel rustType (.ptr type) = .ptr (.ptr (.int 8))) := by
  unfold recoverLevel
  split
  · split
    · rename_i heq _
      exact .inr ⟨LType.ptr.inj heq, rfl⟩
    · exact .inl rfl
  · exact .inl rfl

/-- What becomes of a pointer after the loads. -/
theorem pointerWalk_loaded (visited : Finset σ) (type : LType σ) (label path : String) (place : Place σ)
    (hasLength : Bool) (hsystem : ¬ type.struct?.any M.isSystemStruct) :
    PointerWalk M D visited type path hasLength fun call =>
      match decayed (.ptr type.bottom) with
      | .ptr .function => some (visited, [.excluded "fnptr_field_ir" label])
      | .ptr (.struct s) =>
        printFields (printField M D call s label path place hasLength) visited 0 (M.fields s)
      | .ptr (.array _ element) =>
        if element.isNested then
          call ⟨visited, .ptr element, label ++ "[0]", path ++ "[0]", place ++ [.hop .first], hasLength⟩
        else some (visited, [.value ("*(" ++ label ++ ")")])
      | _ => some (visited, [.read label hasLength]) := by
  have harrival := dumpArrival_unchecked type hsystem
  have hsize := type.sizeOf_bottom_le
  have hptr := type.bottom_ne_ptr
  generalize type.bottom = bottom at harrival hsize hptr ⊢
  cases bottom with
  | struct s => exact .fields s label place harrival fun _ => rfl
  | ptr pointee => exact absurd rfl (hptr pointee)
  | array size element =>
    cases size with
    | zero =>
      cases element with
      | struct s => exact .fields s label place harrival fun _ => rfl
      | array size element =>
        by_cases hnested : element.isNested
        · refine .element element (label ++ "[0]") _ harrival ?_ fun _ => if_pos hnested
          simp only [LType.array.sizeOf_spec] at hsize
          omega
        · exact .ends _ (harrival.trans (dumpArrival_of_not_nested hnested)) fun _ => if_neg hnested
      | _ => exact .ends _ harrival fun _ => rfl
    | succ size =>
      by_cases hnested : element.isNested
      · refine .element element (label ++ "[0]") _ harrival ?_ fun _ => if_pos hnested
        simp only [LType.array.sizeOf_spec] at hsize
        omega
      · exact .ends _ (harrival.trans (dumpArrival_of_not_nested hnested)) fun _ => if_neg hnested
  | _ => exact .ends _ harrival fun _ => rfl

/-- Every call at a pointer is a walk of the described kind. -/
theorem pointerWalk (visited : Finset σ) (type : LType σ) (label path : String) (place : Place σ)
    (hasLength : Bool) : PointerWalk M D visited type path hasLength fun call =>
      printNestedKleeExprs M D call ⟨visited, .ptr type, label, path, place, hasLength⟩ := by
  unfold printNestedKleeExprs
  dsimp only
  split
  · rename_i hsystem
    cases type with
    | struct s =>
      refine .ends _ ?_ fun _ => rfl
      rw [dumpArrival, Bool.true_and]
      exact if_pos hsystem
    | _ => cases hsystem
  · rename_i hsystem
    rcases recoverLevel_ptr (D.rustArgument label) type with hsame | ⟨rfl, hmore⟩
    · rw [hsame, ite_self]
      have hfst := loadPointers_fst type label place
      generalize loadPointers (.ptr type) label place = loaded at hfst ⊢
      obtain ⟨loadedType, loadedLabel, loadedPlace⟩ := loaded
      obtain rfl : loadedType = .ptr type.bottom := hfst
      exact pointerWalk_loaded visited type loadedLabel path loadedPlace hasLength hsystem
    · rw [hmore]
      generalize (label == path) = isTop
      cases isTop
      · exact .ends _ rfl fun _ => rfl
      · exact .ends _ rfl fun _ => rfl

variable (M) in
/-- **What a field is walked as where the guard does not count it.** -/
def unguarded (s : σ) (i : Nat) : LType σ → Option (LType σ)
  | .ptr pointee =>
    if M.isChain s i pointee then none
    else ((M.getTargetType pointee (M.name s) i).filter fun target => target ≠ .function).map .ptr
  | .struct nested => M.getTargetType (.struct nested) (M.name s) i
  | .array size element => M.getTargetType (.array size element) (M.name s) i
  | _ => none

variable (M) (D) in
/-- **A field behind a pointer is passed over, walked as it is, or walked with its struct visited.** -/
inductive StructFieldWalk (s : σ) (visited : Finset σ) (i : Nat) (type : LType σ) (path : String)
    (walk : (DumpCall σ → Option (Dumped σ)) → Option (Dumped σ)) : Prop
  | ended (r : Dumped σ) (hkeeps : visited ⊆ r.1) (h : ∀ call, walk call = some r)
  | plain (converted : LType σ) (htarget : unguarded M s i type = some converted)
    (h : FieldWalk D visited (.ptr converted) path walk)
  | chain (target : LType σ) (inner : (DumpCall σ → Option (Dumped σ)) → Option (Dumped σ))
    (hs : s ∉ visited) (hinner : FieldWalk D (insert s visited) (.ptr (.ptr target)) path inner)
    (h : ∀ call, walk call = (inner call).map fun done => (done.1.erase s, done.2))

/-- Every field of a struct is printed by a walk of the described kind. -/
theorem structFieldWalk (s : σ) (label path : String) (place : Place σ) (hasLength : Bool)
    (visited : Finset σ) (i : Nat) (type : LType σ) :
    StructFieldWalk M D s visited i type (fieldName path i) fun call =>
      printField M D call s label path place hasLength visited i type := by
  have hplain : ∀ converted, unguarded M s i type = some converted →
      StructFieldWalk M D s visited i type (fieldName path i) fun call =>
        printConverted D call s label path place hasLength visited i type converted :=
    fun converted htarget => .plain converted htarget (fieldWalk_converted _ _ _ _ _ _ _ _ _)
  unfold printField
  split
  · exact .ended _ (Finset.Subset.refl _) fun _ => rfl
  · cases type with
    | ptr pointee =>
      dsimp only
      split
      · exact .ended _ (Finset.Subset.refl _) fun _ => rfl
      · rename_i hstop
        by_cases hchain : M.isChain s i pointee
        · have hs : s ∉ visited := fun hs => hstop ⟨hchain, hs⟩
          simp only [if_pos hchain]
          split
          · exact .ended _ (Finset.subset_insert s visited) fun _ => rfl
          · exact .ended _ (Finset.subset_insert s visited) fun _ => rfl
          · exact .chain _ _ hs (fieldWalk_converted _ _ _ _ _ _ _ _ _) fun _ => rfl
        · simp only [if_neg hchain]
          have htarget : unguarded M s i (.ptr pointee) = ((M.getTargetType pointee (M.name s) i).filter
            fun target => target ≠ .function).map .ptr := if_neg hchain
          split
          · exact .ended _ (Finset.Subset.refl _) fun _ => rfl
          · exact .ended _ (Finset.Subset.refl _) fun _ => rfl
          · rename_i target hfunction hget
            simp only [Prod.mk.eta, Option.map_id']
            refine hplain _ ?_
            rw [htarget, hget, Option.filter_some, if_pos]
            · rfl
            · exact decide_eq_true hfunction
    | struct nested =>
      dsimp only
      split
      · exact .ended _ (Finset.Subset.refl _) fun _ => rfl
      · exact hplain _ ‹_›
    | array size element =>
      dsimp only
      split
      · exact .ended _ (Finset.Subset.refl _) fun _ => rfl
      · exact hplain _ ‹_›
    | _ => exact .ended _ (Finset.Subset.refl _) fun _ => rfl

/-! ## Finitely many calls -/

/-- The same calls are made by a walk that is the same. -/
theorem Determined.of_eq {α β γ : Type*} {g g' : (α → Option β) → Option γ} (hg : Determined g)
    (h : ∀ f, g' f = g f) : Determined g' := by
  obtain rfl : g' = g := funext h
  exact hg

omit [DecidableEq σ] in
/-- Printing fields one after the other needs the results of finitely many calls if printing one
does. -/
theorem determined_printFields
    {print : (DumpCall σ → Option (Dumped σ)) → Finset σ → Nat → LType σ → Option (Dumped σ)}
    (h : ∀ visited i type, Determined fun call => print call visited i type) :
    ∀ (types : List (LType σ)) (visited : Finset σ) (i : Nat),
      Determined fun call => printFields (print call) visited i types
  | [], _, _ => .const _
  | type :: types, visited, i =>
    (h visited i type).bind fun first => (determined_printFields h types first.1 (i + 1)).map _

omit [DecidableEq σ] in
/-- A walk through a field needs the results of finitely many calls. -/
theorem FieldWalk.determined {visited : Finset σ} {type : LType σ} {path : String}
    {walk : (DumpCall σ → Option (Dumped σ)) → Option (Dumped σ)}
    (h : FieldWalk D visited type path walk) : Determined walk := by
  cases h with
  | ended prints h => exact Determined.of_eq (.const _) h
  | taken buffer label slot hasLength _ h => exact Determined.of_eq ((Determined.call _).map _) h
  | into label place hasLength h => exact Determined.of_eq (.call _) h

/-- So does one through a field of a struct. -/
theorem StructFieldWalk.determined {s : σ} {visited : Finset σ} {i : Nat} {type : LType σ} {path : String}
    {walk : (DumpCall σ → Option (Dumped σ)) → Option (Dumped σ)}
    (h : StructFieldWalk M D s visited i type path walk) : Determined walk := by
  cases h with
  | ended r _ h => exact Determined.of_eq (.const _) h
  | plain converted _ h => exact h.determined
  | chain target inner _ hinner h => exact Determined.of_eq (hinner.determined.map _) h

/-- So does one through a pointer. -/
theorem PointerWalk.determined {visited : Finset σ} {type : LType σ} {path : String} {hasLength : Bool}
    {walk : (DumpCall σ → Option (Dumped σ)) → Option (Dumped σ)}
    (h : PointerWalk M D visited type path hasLength walk) : Determined walk := by
  cases h with
  | ends prints _ h => exact Determined.of_eq (.const _) h
  | element element label place _ _ h => exact Determined.of_eq (.call _) h
  | fields s label place _ h =>
    exact Determined.of_eq
      (determined_printFields (fun _ _ _ => (structFieldWalk _ _ _ _ _ _ _ _).determined) _ _ _) h

/-- So does the body of the dump, and the recursion of the library applies to it. -/
theorem determined_dump (c : DumpCall σ) : Determined fun call => printNestedKleeExprs M D call c := by
  obtain ⟨visited, type, label, path, place, hasLength⟩ := c
  cases type with
  | struct s =>
    exact determined_printFields (fun _ _ _ => (fieldWalk_value _ _ _ _ _ _ _).determined) _ _ _
  | ptr pointee => exact (pointerWalk visited pointee label path place hasLength).determined
  | _ => exact .const _

/-! ## Visited structs stay visited -/

/-- Calls keep the structs that are visited. -/
def Keeps (call : DumpCall σ → Option (Dumped σ)) : Prop :=
  ∀ c r, call c = some r → c.visited ⊆ r.1

omit [DecidableEq σ] in
/-- Printing fields takes nothing out of what has been visited if printing one does not. -/
theorem printFields_keeps {print : Finset σ → Nat → LType σ → Option (Dumped σ)}
    (h : ∀ visited i type r, print visited i type = some r → visited ⊆ r.1) :
    ∀ (types : List (LType σ)) {visited : Finset σ} {i : Nat} {r : Dumped σ},
      printFields print visited i types = some r → visited ⊆ r.1
  | [], visited, i, r, hr => by
    obtain rfl := Option.some.inj hr
    exact Finset.Subset.refl _
  | type :: types, visited, i, r, hr => by
    obtain ⟨first, hfirst, hmap⟩ := Option.bind_eq_some_iff.mp hr
    obtain ⟨rest, hrest, rfl⟩ := Option.map_eq_some_iff.mp hmap
    have hkeeps : first.1 ⊆ rest.1 := printFields_keeps h types hrest
    exact (h _ _ _ _ hfirst).trans hkeeps

variable {call : DumpCall σ → Option (Dumped σ)}

omit [DecidableEq σ] in
/-- A walk through a field takes nothing out of what has been visited if the calls do not. -/
theorem FieldWalk.keeps (hcall : Keeps call) {visited : Finset σ} {type : LType σ} {path : String}
    {walk : (DumpCall σ → Option (Dumped σ)) → Option (Dumped σ)}
    (h : FieldWalk D visited type path walk) {r : Dumped σ} (hr : walk call = some r) : visited ⊆ r.1 := by
  cases h with
  | ended prints h =>
    obtain rfl := Option.some.inj ((h call).symm.trans hr)
    exact Finset.Subset.refl _
  | taken buffer label slot hasLength _ h =>
    obtain ⟨done, hdone, rfl⟩ := Option.map_eq_some_iff.mp ((h call).symm.trans hr)
    exact hcall _ _ hdone
  | into label place hasLength h => exact hcall _ _ ((h call).symm.trans hr)

/-- Nor does one through a field of a struct. -/
theorem StructFieldWalk.keeps (hcall : Keeps call) {s : σ} {visited : Finset σ} {i : Nat} {type : LType σ}
    {path : String} {walk : (DumpCall σ → Option (Dumped σ)) → Option (Dumped σ)}
    (h : StructFieldWalk M D s visited i type path walk) {r : Dumped σ} (hr : walk call = some r) :
    visited ⊆ r.1 := by
  cases h with
  | ended r' hkeeps h =>
    obtain rfl := Option.some.inj ((h call).symm.trans hr)
    exact hkeeps
  | plain converted _ h => exact h.keeps hcall hr
  | chain target inner hs hinner h =>
    obtain ⟨done, hdone, rfl⟩ := Option.map_eq_some_iff.mp ((h call).symm.trans hr)
    have hkept := hinner.keeps hcall hdone
    intro t ht
    refine Finset.mem_erase.mpr ⟨?_, hkept (Finset.mem_insert_of_mem ht)⟩
    rintro rfl
    exact hs ht

/-- Nor does one through a pointer. -/
theorem PointerWalk.keeps (hcall : Keeps call) {visited : Finset σ} {type : LType σ} {path : String}
    {hasLength : Bool} {walk : (DumpCall σ → Option (Dumped σ)) → Option (Dumped σ)}
    (h : PointerWalk M D visited type path hasLength walk) {r : Dumped σ} (hr : walk call = some r) :
    visited ⊆ r.1 := by
  cases h with
  | ends prints _ h =>
    obtain rfl := Option.some.inj ((h call).symm.trans hr)
    exact Finset.Subset.refl _
  | element element label place _ _ h => exact hcall _ _ ((h call).symm.trans hr)
  | fields s label place _ h =>
    exact printFields_keeps (fun _ _ _ _ h => (structFieldWalk _ _ _ _ _ _ _ _).keeps hcall h) _
      ((h call).symm.trans hr)

/-- **What is visited stays so.** -/
theorem dump_keeps {c : DumpCall σ} {r : Dumped σ} (h : Returns (printNestedKleeExprs M D) c r) :
    c.visited ⊆ r.1 := by
  refine Returns.induct (P := fun c r => c.visited ⊆ r.1) ?_ h
  intro call hcall c r hr
  obtain ⟨visited, type, label, path, place, hasLength⟩ := c
  cases type with
  | struct s =>
    exact printFields_keeps (fun _ _ _ _ h => (fieldWalk_value _ _ _ _ _ _ _).keeps hcall h) _ hr
  | ptr pointee => exact (pointerWalk visited pointee label path place hasLength).keeps hcall hr
  | _ =>
    obtain rfl := Option.some.inj hr
    exact Finset.Subset.refl _

/-! ## Steps that the guard does not count -/

variable (M) in
/-- **A step of the dump that the guard does not count**, from a struct to the next one. -/
def DumpStep (s next : σ) : Prop :=
  ∃ i type converted, (M.fields s)[i]? = some type ∧ unguarded M s i type = some converted ∧
    dumpArrival M true converted = some next

variable (M) (D) in
/-- The fields of a struct are printed, if calls return what they do. -/
def FieldsEnd (s : σ) (visited : Finset σ) (path : String) : Prop :=
  ∀ call : DumpCall σ → Option (Dumped σ), (∀ c r, call c = some r → Returns (printNestedKleeExprs M D) c r) →
    (∀ c, Terminates (printNestedKleeExprs M D) c → (call c).isSome) → ∀ label place hasLength,
      (printFields (printField M D call s label path place hasLength) visited 0 (M.fields s)).isSome

/-- The paths of fields and elements get longer. -/
theorem length_lt_fieldName (path : String) (i : Nat) : path.length < (fieldName path i).length := by
  rw [fieldName, String.length_append, String.length_append]
  have : ".field_".length = 7 := rfl
  omega

/-- The path of an element is longer than that of its array. -/
theorem length_lt_first (path : String) : path.length < (path ++ "[0]").length := by
  rw [String.length_append]
  have : "[0]".length = 3 := rfl
  omega

omit [DecidableEq σ] in
/-- Fields are printed if each of them is, where no less is visited. -/
theorem printFields_isSome {print : Finset σ → Nat → LType σ → Option (Dumped σ)}
    (hkeeps : ∀ visited i type r, print visited i type = some r → visited ⊆ r.1) {types : List (LType σ)}
    {visited : Finset σ} {i : Nat} (h : ∀ j type visited', types[j]? = some type → visited ⊆ visited' →
      (print visited' (i + j) type).isSome) : (printFields print visited i types).isSome := by
  induction types generalizing visited i with
  | nil => rfl
  | cons type types ih =>
    obtain ⟨first, hfirst⟩ := Option.isSome_iff_exists.mp (h 0 type visited rfl (Finset.Subset.refl _))
    rw [Nat.add_zero] at hfirst
    rw [printFields, hfirst, Option.bind_some, Option.isSome_map]
    refine ih fun j type' visited' hj hvisited => ?_
    rw [show i + 1 + j = i + (j + 1) by omega]
    exact h (j + 1) type' visited' hj ((hkeeps _ _ _ _ hfirst).trans hvisited)

omit [DecidableEq σ] in
/-- A walk through a field ends if the calls it makes do: for the buffers that are taken, and for
the type of the field. -/
theorem FieldWalk.isSome {visited : Finset σ} {type : LType σ} {path : String}
    {walk : (DumpCall σ → Option (Dumped σ)) → Option (Dumped σ)} (h : FieldWalk D visited type path walk)
    (htaken : ∀ buffer, D.leafBuffers path = some buffer → ∀ label place hasLength,
      (call ⟨visited, .ptr buffer.target, label, path, place, hasLength⟩).isSome)
    (hinto : ∀ label place hasLength, (call ⟨visited, type, label, path, place, hasLength⟩).isSome) :
    (walk call).isSome := by
  cases h with
  | ended prints h => rw [h]; rfl
  | taken buffer label slot hasLength hbuffer h =>
    rw [h, printTaken, Option.isSome_map]
    exact htaken buffer hbuffer _ _ _
  | into label place hasLength h =>
    rw [h]
    exact hinto _ _ _

/-- **The fields of a struct are printed** if the calls for them end: for a buffer, for a field that the
guard does not count, and where more structs are visited. -/
theorem fieldsEnd_of {s : σ} {visited : Finset σ} {path : String}
    (htaken : ∀ visited' path' buffer, path.length < path'.length → D.leafBuffers path' = some buffer →
      ∀ label place hasLength, Terminates (printNestedKleeExprs M D)
        ⟨visited', .ptr buffer.target, label, path', place, hasLength⟩)
    (hplain : ∀ visited' path' i type converted, path.length < path'.length → visited ⊆ visited' →
      (M.fields s)[i]? = some type → unguarded M s i type = some converted →
      ∀ label place hasLength, Terminates (printNestedKleeExprs M D)
        ⟨visited', .ptr converted, label, path', place, hasLength⟩)
    (hchain : ∀ visited' path' converted, path.length < path'.length → visited ⊂ visited' →
      ∀ label place hasLength, Terminates (printNestedKleeExprs M D)
        ⟨visited', .ptr converted, label, path', place, hasLength⟩) : FieldsEnd M D s visited path := by
  intro call hsound hcall label place hasLength
  have hcallKeeps : Keeps call := fun c r hr => dump_keeps (hsound c r hr)
  refine printFields_isSome
    (fun _ _ _ _ h => (structFieldWalk _ _ _ _ _ _ _ _).keeps hcallKeeps h) fun i type visited' hi hvisited => ?_
  rw [Nat.zero_add]
  have hpath := length_lt_fieldName path i
  cases structFieldWalk (M := M) (D := D) s label path place hasLength visited' i type with
  | ended r _ h => rw [h]; rfl
  | plain converted htarget h =>
    exact h.isSome (fun buffer hbuffer _ _ _ => hcall _ (htaken _ _ buffer hpath hbuffer _ _ _))
      fun _ _ _ => hcall _ (hplain _ _ i type converted hpath hvisited hi htarget _ _ _)
  | chain target inner hs hinner h =>
    rw [h, Option.isSome_map]
    refine hinner.isSome (fun buffer hbuffer _ _ _ => hcall _ (htaken _ _ buffer hpath hbuffer _ _ _))
      fun _ _ _ => hcall _ (hchain _ _ _ hpath ?_ _ _ _)
    exact Finset.ssubset_of_subset_of_ssubset hvisited (Finset.ssubset_insert hs)

/-- **A pointer is printed if the fields of the struct are** that it leads to. -/
theorem terminates_pointer {visited : Finset σ} (type : LType σ) {path : String}
    (h : ∀ s, dumpArrival M true type = some s → ∀ path', path.length ≤ path'.length →
      FieldsEnd M D s visited path') (label : String) (place : Place σ) (hasLength : Bool) :
    Terminates (printNestedKleeExprs M D) ⟨visited, .ptr type, label, path, place, hasLength⟩ := by
  induction hn : sizeOf type using Nat.strong_induction_on generalizing type path label place with
  | h n ih =>
    subst hn
    refine terminates_of determined_dump fun call hsound hcall => ?_
    cases pointerWalk (M := M) (D := D) visited type label path place hasLength with
    | ends prints _ h => rw [h]; rfl
    | element element label' place' harrival hsize hwalk =>
      rw [hwalk]
      refine hcall _ (ih _ hsize element ?_ _ _ rfl)
      intro s hs path' hpath
      exact h s (harrival.trans hs) path' ((length_lt_first path).le.trans hpath)
    | fields s label' place' harrival hwalk =>
      rw [hwalk]
      exact h s harrival path (Nat.le_refl _) call hsound hcall _ _ _

/-- **The fields of every struct are printed** if paths of unguarded steps end, by induction on the length
that is left for paths with buffers, on the structs that are not visited, and on the steps. -/
theorem fieldsEnd [Fintype σ] {bound : Nat} (hbound : ∀ path buffer, D.leafBuffers path = some buffer →
    path.length < bound) (hacc : ∀ s, Acc (fun next s => DumpStep M s next) s) (s : σ) (visited : Finset σ)
    (path : String) : FieldsEnd M D s visited path := by
  suffices h : ∀ left free s, Acc (fun next s => DumpStep M s next) s → ∀ visited path,
      bound - path.length ≤ left → visitedᶜ.card ≤ free → FieldsEnd M D s visited path from
    h _ _ s (hacc s) visited path (Nat.le_refl _) (Nat.le_refl _)
  intro left
  induction left using Nat.strong_induction_on with
  | h left ihLeft =>
    intro free
    induction free using Nat.strong_induction_on with
    | h free ihFree =>
      intro s hs
      induction hs with
      | intro s _ ih =>
        intro visited path hleft hfree
        refine fieldsEnd_of ?_ ?_ ?_
        · intro visited' path' buffer hpath hbuffer
          have hlt := hbound path' buffer hbuffer
          refine terminates_pointer _ fun t _ path'' hpath' => ?_
          exact ihLeft (bound - path''.length) (by omega) _ t (hacc t) visited' path'' (Nat.le_refl _)
            (Nat.le_refl _)
        · intro visited' path' i type converted hpath hvisited htype htarget
          refine terminates_pointer _ fun t ht path'' hpath' => ?_
          have hle : visited'ᶜ.card ≤ visitedᶜ.card :=
            Finset.card_le_card (Finset.compl_subset_compl.mpr hvisited)
          exact ih t ⟨i, type, converted, htype, htarget, ht⟩ visited' path'' (by omega) (hle.trans hfree)
        · intro visited' path' converted hpath hvisited
          refine terminates_pointer _ fun t _ path'' hpath' => ?_
          have hlt : visited'ᶜ.card < visitedᶜ.card :=
            Finset.card_lt_card (Finset.compl_ssubset_compl.mpr hvisited)
          exact ihFree _ (Nat.lt_of_lt_of_le hlt hfree) t (hacc t) visited' path'' (by omega) (Nat.le_refl _)

/-- **The dump ends if no struct leads back to itself unguarded.** -/
theorem dump_terminates [Fintype σ] {bound : Nat} (hbound : ∀ path buffer,
    D.leafBuffers path = some buffer → path.length < bound)
    (hacc : ∀ s, Acc (fun next s => DumpStep M s next) s) (c : DumpCall σ) :
    Terminates (printNestedKleeExprs M D) c := by
  have hpointer : ∀ visited type label path place hasLength,
      Terminates (printNestedKleeExprs M D) ⟨visited, .ptr type, label, path, place, hasLength⟩ :=
    fun visited type label path place hasLength =>
      terminates_pointer type (fun s _ path' _ => fieldsEnd hbound hacc s visited path') label place hasLength
  have hdone : ∀ {type visited label path place hasLength},
      (∀ call, printNestedKleeExprs M D call ⟨visited, type, label, path, place, hasLength⟩ =
        some (visited, [.value label])) →
      Terminates (printNestedKleeExprs M D) ⟨visited, type, label, path, place, hasLength⟩ :=
    fun h => ⟨_, 1, h _⟩
  have hstruct : ∀ s visited label path place hasLength,
      Terminates (printNestedKleeExprs M D) ⟨visited, .struct s, label, path, place, hasLength⟩ := by
    intro s
    induction s using M.sized.induction with
    | h s ih =>
      intro visited label path place hasLength
      refine terminates_of determined_dump fun call hsound hcall => ?_
      have hcallKeeps : Keeps call := fun c r hr => dump_keeps (hsound c r hr)
      refine printFields_isSome
        (fun _ _ _ _ h => (fieldWalk_value _ _ _ _ _ _ _).keeps hcallKeeps h) fun i type visited' hi _ => ?_
      refine (fieldWalk_value _ _ _ _ _ _ _).isSome (fun _ _ _ _ _ => hcall _ (hpointer _ _ _ _ _ _)) ?_
      intro label place hasLength
      refine hcall _ ?_
      cases type with
      | ptr pointee => exact hpointer _ _ _ _ _ _
      | struct t => exact ih t (List.mem_of_getElem? hi) _ _ _ _ _
      | _ => exact hdone fun _ => rfl
  obtain ⟨visited, type, label, path, place, hasLength⟩ := c
  cases type with
  | ptr pointee => exact hpointer _ _ _ _ _ _
  | struct s => exact hstruct _ _ _ _ _ _
  | _ => exact hdone fun _ => rfl

/-! ## Steps that go on for ever -/

omit [DecidableEq σ] in
/-- Fields are not printed if one of them is not, whatever is visited. -/
theorem printFields_eq_none {print : Finset σ → Nat → LType σ → Option (Dumped σ)} {types : List (LType σ)}
    {visited : Finset σ} {i j : Nat} {type : LType σ} (hj : types[j]? = some type)
    (h : ∀ visited', print visited' (i + j) type = none) : printFields print visited i types = none := by
  induction types generalizing visited i j with
  | nil => cases hj
  | cons first types ih =>
    rw [printFields]
    cases j with
    | zero =>
      obtain rfl := Option.some.inj hj
      rw [show print visited i first = none from h visited]
      rfl
    | succ j =>
      cases hfirst : print visited i first with
      | none => rfl
      | some done =>
        rw [Option.bind_some, ih (j := j) hj, Option.map_none]
        intro visited'
        rw [show i + 1 + j = i + (j + 1) by omega]
        exact h visited'

/-- What the dump looks at where nothing was recorded and every field is written. -/
def nothingRecorded : DumpContext σ :=
  ⟨fun _ => none, [], fun _ => none, fun _ _ => false⟩

/-- A field that the guard does not count is walked. -/
theorem printField_unguarded {s : σ} {label path : String} {place : Place σ} {hasLength : Bool}
    {visited : Finset σ} {i : Nat} {type converted : LType σ} (h : unguarded M s i type = some converted) :
    printField M nothingRecorded call s label path place hasLength visited i type =
      call ⟨visited, .ptr converted, fieldName label i, fieldName path i, place ++ [.hop (.field s i)],
        hasLength⟩ := by
  have hconverted : ∀ type, printConverted nothingRecorded call s label path place hasLength visited i type
      converted = call ⟨visited, .ptr converted, fieldName label i, fieldName path i,
        place ++ [.hop (.field s i)], hasLength⟩ := by
    intro type
    have hnone : ∀ isLeaf : Bool, (if isLeaf = true then nothingRecorded.leafBuffers (fieldName path i) else none)
        = (none : Option (Buffer σ)) := fun isLeaf => ite_self none
    have hover : ∀ isLeaf : Bool, (isLeaf && nothingRecorded.underBoundary (σ := σ) path) = false :=
      fun isLeaf => Bool.and_false isLeaf
    unfold printConverted
    dsimp only
    rw [hnone]
    dsimp only
    rw [hover]
    rfl
  unfold printField
  rw [if_neg (by rw [show nothingRecorded.isFieldUnused s i = false from rfl, Bool.and_false]; decide)]
  cases type with
  | ptr pointee =>
    rw [unguarded] at h
    obtain ⟨hchain, hsome⟩ := Option.ite_none_left_eq_some.mp h
    obtain ⟨target, htarget, rfl⟩ := Option.map_eq_some_iff.mp hsome
    obtain ⟨hget, hfunction⟩ := Option.filter_eq_some_iff.mp htarget
    have hfunction := of_decide_eq_true hfunction
    dsimp only
    rw [if_neg fun hstop => hchain hstop.1, hget]
    simp only [if_neg hchain]
    cases target with
    | function => exact absurd rfl hfunction
    | _ =>
      rw [hconverted]
      simp only [Prod.mk.eta, Option.map_id']
  | struct nested =>
    have hget : M.getTargetType (.struct nested) (M.name s) i = some converted := h
    dsimp only
    rw [hget]
    exact hconverted _
  | array size element =>
    have hget : M.getTargetType (.array size element) (M.name s) i = some converted := h
    dsimp only
    rw [hget]
    exact hconverted _
  | _ => cases h

/-- **The dump of a pointer goes on for ever** if the steps from where it leads to do. -/
theorem dump_diverges {type : LType σ} {s : σ} (hs : dumpArrival M true type = some s)
    (hacc : ¬ Acc (fun next s => DumpStep M s next) s) (visited : Finset σ) (label path : String)
    (place : Place σ) (hasLength : Bool) : ¬ Terminates (printNestedKleeExprs M nothingRecorded)
      ⟨visited, .ptr type, label, path, place, hasLength⟩ := by
  refine not_terminates (P := fun c => ∃ type s, c.type = .ptr type ∧ dumpArrival M true type = some s ∧
    ¬ Acc (fun next s => DumpStep M s next) s) ?_ ⟨type, s, rfl, hs, hacc⟩
  rintro call ⟨visited, _, label, path, place, hasLength⟩ ⟨type, s, rfl, hs, hacc⟩ hcall
  cases pointerWalk (M := M) (D := nothingRecorded) visited type label path place hasLength with
  | ends prints harrival h =>
    rw [hs] at harrival
    cases harrival
  | element element label' place' harrival _ h =>
    rw [h]
    exact hcall _ ⟨element, s, rfl, harrival.symm.trans hs, hacc⟩
  | fields t label' place' harrival h =>
    obtain rfl := Option.some.inj (hs.symm.trans harrival)
    obtain ⟨next, hstep, hnext⟩ : ∃ next, DumpStep M s next ∧ ¬ Acc (fun next s => DumpStep M s next) next := by
      by_contra hall
      push Not at hall
      exact hacc (.intro _ hall)
    obtain ⟨i, field, converted, hfield, htarget, harrives⟩ := hstep
    rw [h]
    refine printFields_eq_none hfield fun visited' => ?_
    rw [Nat.zero_add, printField_unguarded htarget]
    exact hcall _ ⟨converted, next, rfl, harrives, hnext⟩

end

end Assure
