import Assure.Harness.Signature
import Assure.Library.Cycles

/-!
# When the walk before the call ends

What the walk at a struct asks for is said once (`FieldCall`): it is done if those calls return, and if it is
done they have. So the walks end exactly if the steps from struct to struct do (`StructStep`), each with the
structs that are visited there.

Proved is when calls return, for every name and slot. What is written into the slots is part of the
model, since it decides nothing it is not compared with anything.
-/

namespace Assure

open Assure.Library

section

variable {σ : Type} [DecidableEq σ] {M : Module σ}

/-! ## Finitely many calls -/

omit [DecidableEq σ] in
/-- Doing something for each field needs the results of finitely many calls if doing it for one
does. -/
theorem Determined.eachField {action : (InitCall σ → Option (Actions σ)) → Nat → LType σ →
    Option (Actions σ)} (h : ∀ i type, Determined fun call => action call i type) :
    ∀ (types : List (LType σ)) (i : Nat), Determined fun call => eachField (action call) i types
  | [], _ => .const _
  | type :: types, i => (h i type).bind fun _ => (Determined.eachField h types (i + 1)).map _

/-- Initialising what a pointer leads to needs the results of finitely many calls. -/
theorem determined_pointer (visited : Finset σ) (slot : Slot σ) (pointee : LType σ) (structName : String)
    (index : Nat) (name : String) (fromStruct : Bool) :
    Determined fun call => initializeInnerPointer M call visited slot pointee structName index name
      fromStruct := by
  unfold initializeInnerPointer
  split
  · exact .const _
  · split
    · exact .const _
    · exact (Determined.call _).map _

/-- So does the walk that sets the last pointers to null. -/
theorem determined_boundary (visited : Finset σ) : ∀ (depth : Nat) (s : σ) (slot : Slot σ) (start : Nat)
    (name : String), Determined fun call => nullBoundaryPointers M call visited depth s slot start name
  | 0, _, _, _, _ => .const _
  | depth + 1, s, slot, start, name => by
    unfold nullBoundaryPointers
    refine Determined.eachField (fun j type => ?_) _ _
    cases type with
    | ptr pointee =>
      dsimp only
      split
      · exact .const _
      · split
        · exact .const _
        · exact determined_pointer visited _ _ _ _ _ _
    | struct nested =>
      dsimp only
      split
      · exact .const _
      · exact determined_boundary visited depth _ _ _ _
    | _ => exact .const _

/-- So does the walk through the fields of a struct. -/
theorem determined_fields (visited : Finset σ) (s : σ) (slot : Slot σ) (name : String) :
    ∀ (i : Nat) (types : List (LType σ)),
      Determined fun call => initializeFields M call visited s slot name i types
  | _, [] => .const _
  | i, type :: types => by
    have ih := determined_fields visited s slot name (i + 1) types
    cases type with
    | ptr pointee =>
      unfold initializeFields
      split
      · exact (determined_boundary visited _ _ _ _ _).map _
      · exact (determined_pointer _ _ _ _ _ _ _).bind fun _ => ih.map _
    | struct nested =>
      unfold initializeFields
      refine Determined.bind ?_ fun _ => ih.map _
      unfold initializeNested
      split
      · exact (determined_pointer visited _ _ _ _ _ _).map _
      · unfold initializeInnerStruct
        split
        · exact .const _
        · split
          · exact .call _
          · exact (Determined.call _).map _
    | _ => exact ih

/-- So does the body of the initialiser, and the recursion of the library applies to it. -/
theorem determined_init (c : InitCall σ) : Determined fun call => initializeInnerObjects M call c := by
  unfold initializeInnerObjects
  split
  · exact determined_pointer c.visited _ _ _ _ _ _
  · split
    · exact .const _
    · unfold initializeStruct
      split
      · exact .const _
      · exact determined_fields c.visited _ _ _ _ _
  · unfold initializeStruct
    split
    · exact .const _
    · exact determined_fields c.visited _ _ _ _ _
  · exact .const _

/-! ## The calls -/

variable (M)

/-- The call for a pointer: for the object it gets. -/
def PointerCall (pointee : LType σ) (structName : String) (index : Nat) (type : LType σ) : Prop :=
  pointee ≠ .function ∧
    ∃ target, M.getTargetType pointee structName index = some target ∧ type = objectType M target

/-- The calls for the fields of a boundary node from one on. -/
inductive BoundaryCall : Nat → σ → Nat → LType σ → Prop
  | leaf {depth start j : Nat} {s : σ} {pointee type : LType σ} (hj : start ≤ j)
    (hfield : (M.fields s)[j]? = some (.ptr pointee))
    (hfn : M.name s = "" ∨ M.checkStructFunctionPtr (M.name s) j = false) (hchain : ¬ M.isChain s j pointee)
    (hcall : PointerCall M pointee (M.name s) j type) : BoundaryCall (depth + 1) s start type
  | nested {depth start j : Nat} {s nested : σ} {type : LType σ} (hj : start ≤ j)
    (hfield : (M.fields s)[j]? = some (.struct nested)) (hsystem : M.isSystemStruct nested = false)
    (hcall : BoundaryCall depth (boundaryTarget M (M.name s) j nested) 0 type) :
    BoundaryCall (depth + 1) s start type

/-- **The calls for a field.** Only a pointer to a struct adds to the visited structs. -/
inductive FieldCall (visited : Finset σ) (s : σ) : Nat → Finset σ → LType σ → Prop
  | pointer {i : Nat} {pointee type : LType σ} (hfield : (M.fields s)[i]? = some (.ptr pointee))
    (hchain : ¬ M.isChain s i pointee) (hcall : PointerCall M pointee (M.name s) i type) :
    FieldCall visited s i visited type
  | chain {i : Nat} {pointee type : LType σ} (hfield : (M.fields s)[i]? = some (.ptr pointee))
    (hchain : M.isChain s i pointee) (hs : s ∉ visited)
    (hcall : PointerCall M pointee (M.name s) i type) : FieldCall visited s i (insert s visited) type
  | boundary {i : Nat} {pointee type : LType σ} (hfield : (M.fields s)[i]? = some (.ptr pointee))
    (hchain : M.isChain s i pointee) (hs : s ∈ visited) (hcall : BoundaryCall M 5 s i type) :
    FieldCall visited s i visited type
  | vecElement {i : Nat} {nested element raw : σ} {type : LType σ}
    (hfield : (M.fields s)[i]? = some (.struct nested))
    (helement : M.checkStructVecElem (M.name s) i = some element) (hraw : vecRaw M nested = some raw)
    (hcall : PointerCall M (.struct element) "" 0 type) : FieldCall visited s i visited type
  | inside {i : Nat} {nested : σ} {target : LType σ} (hfield : (M.fields s)[i]? = some (.struct nested))
    (hvec : M.checkStructVecElem (M.name s) i = none ∨ vecRaw M nested = none)
    (htarget : M.getTargetType (.struct nested) (M.name s) i = some target)
    (hsystem : target.struct?.any (fun s => M.allocSize s != 0 && !M.isSystemStruct s) = true) :
    FieldCall visited s i visited target
  | copied {i : Nat} {nested : σ} {target : LType σ} (hfield : (M.fields s)[i]? = some (.struct nested))
    (hvec : M.checkStructVecElem (M.name s) i = none ∨ vecRaw M nested = none)
    (htarget : M.getTargetType (.struct nested) (M.name s) i = some target)
    (hsystem : target.struct?.any (fun s => M.allocSize s != 0 && !M.isSystemStruct s) = false) :
    FieldCall visited s i visited (objectType M target)

/-- The walk gets as far as a field: no pointer to a struct before it ends the walk. -/
def Reaches (visited : Finset σ) (s : σ) (i : Nat) : Prop :=
  s ∈ visited → ∀ j < i, ∀ pointee, (M.fields s)[j]? = some (.ptr pointee) → ¬ M.isChain s j pointee

/-- The struct that a walk for a type comes to, through pointers and to the first element of an array. -/
def arrival : LType σ → Option σ
  | .struct s => some s
  | .array size (.struct s) => if size = 0 then none else some s
  | .ptr (.struct s) => (M.getTargetType (.struct s) "" 0).bind LType.struct?
  | .ptr (.array _ (.struct s)) => some s
  | .ptr (.ptr pointee) => arrival (.ptr pointee)
  | _ => none

/-- **A step of the walk** from a struct to the next one. -/
def StructStep (node next : Finset σ × σ) : Prop :=
  M.isSystemStruct node.2 = false ∧ ∃ i type, Reaches M node.1 node.2 i ∧
    FieldCall M node.1 node.2 i next.1 type ∧ arrival M type = some next.2

variable {M}

/-! ## The calls that are made -/

variable {call : InitCall σ → Option (Actions σ)}

/-- A pointer is initialised exactly if the call for what it leads to returns, where there is one.
-/
theorem pointer_isSome {visited : Finset σ} {slot : Slot σ} {pointee : LType σ} {structName : String}
    {index : Nat} {name : String} {fromStruct : Bool} :
    (initializeInnerPointer M call visited slot pointee structName index name fromStruct).isSome ↔
      ∀ type, PointerCall M pointee structName index type → (call ⟨visited, type, [], name⟩).isSome := by
  unfold initializeInnerPointer
  split
  · rename_i hfunction
    exact ⟨fun _ type htype => absurd hfunction htype.1, fun _ => rfl⟩
  · rename_i hfunction
    split
    · rename_i hnone
      refine ⟨fun _ type htype => ?_, fun _ => rfl⟩
      obtain ⟨-, target, htarget, -⟩ := htype
      rw [hnone] at htarget
      cases htarget
    · rename_i target htarget
      rw [Option.isSome_map]
      constructor
      · rintro h type ⟨-, target', htarget', rfl⟩
        rw [htarget] at htarget'
        cases htarget'
        exact h
      · exact fun h => h _ ⟨hfunction, target, htarget, rfl⟩

omit [DecidableEq σ] in
/-- The walk over the fields ends exactly if it ends at each of them. -/
theorem eachField_isSome {action : Nat → LType σ → Option (Actions σ)} :
    ∀ (types : List (LType σ)) (i : Nat), (eachField action i types).isSome ↔
      ∀ j type, types[j]? = some type → (action (i + j) type).isSome
  | [], i => by
    refine ⟨fun _ j type h => ?_, fun _ => rfl⟩
    rw [List.getElem?_nil] at h
    cases h
  | type :: types, i => by
    have ih : (eachField action (i + 1) types).isSome ↔
        ∀ j type, types[j]? = some type → (action (i + 1 + j) type).isSome := eachField_isSome types (i + 1)
    rw [eachField, Option.isSome_bind]
    constructor
    · intro h j type' hj
      obtain ⟨actions, hactions⟩ := Option.isSome_iff_exists.mp (Option.isSome_of_any h)
      rw [hactions, Option.any_some, Option.isSome_map] at h
      cases j with
      | zero =>
        obtain rfl := Option.some.inj hj
        exact Option.isSome_of_eq_some hactions
      | succ j =>
        rw [show i + (j + 1) = i + 1 + j by omega]
        exact ih.mp h j type' hj
    · intro h
      obtain ⟨actions, hactions⟩ := Option.isSome_iff_exists.mp (h 0 type rfl)
      rw [Nat.add_zero] at hactions
      rw [hactions, Option.any_some, Option.isSome_map]
      refine ih.mpr fun j type' hj => ?_
      rw [show i + 1 + j = i + (j + 1) by omega]
      exact h (j + 1) type' hj

/-- A boundary node is done if the calls for its fields return. -/
theorem boundary_isSome {visited : Finset σ} {depth : Nat} {s : σ} {slot : Slot σ} {start : Nat}
    {name : String} (h : ∀ type, BoundaryCall M depth s start type → ∀ slot name,
      (call ⟨visited, type, slot, name⟩).isSome) :
    (nullBoundaryPointers M call visited depth s slot start name).isSome := by
  induction depth generalizing s slot start name with
  | zero => rfl
  | succ depth ih =>
    rw [nullBoundaryPointers, eachField_isSome]
    intro j type hj
    rw [List.getElem?_drop] at hj
    cases type with
    | ptr pointee =>
      dsimp only
      split
      · rfl
      · rename_i hfunction
        split
        · rfl
        · rename_i hchain
          rw [pointer_isSome]
          intro type htype
          refine h type (.leaf (Nat.le_add_right start j) hj ?_ hchain htype) _ _
          rw [Bool.or_eq_true, Bool.and_eq_true, bne_iff_ne] at hfunction
          by_cases hname : M.name s = ""
          · exact .inl hname
          · exact .inr (Bool.eq_false_iff.mpr fun hfn => hfunction (.inr ⟨hname, hfn⟩))
    | struct nested =>
      dsimp only
      split
      · rfl
      · rename_i hsystem
        exact ih fun type htype =>
          h type (.nested (Nat.le_add_right start j) hj (Bool.eq_false_iff.mpr hsystem) htype)
    | _ => rfl

/-- The calls for the fields of a boundary node that is done have returned. -/
theorem boundary_calls {visited : Finset σ} {depth : Nat} {s : σ} {start : Nat} {type : LType σ}
    (hcall : BoundaryCall M depth s start type) {slot : Slot σ} {name : String}
    (h : (nullBoundaryPointers M call visited depth s slot start name).isSome) :
    ∃ slot name, (call ⟨visited, type, slot, name⟩).isSome := by
  induction hcall generalizing slot name with
  | @leaf depth start j s pointee type hj hfield hfn hchain hcall =>
    rw [nullBoundaryPointers, eachField_isSome] at h
    have hj' := h (j - start) (.ptr pointee) (by rw [List.getElem?_drop, Nat.add_sub_of_le hj, hfield])
    rw [Nat.add_sub_of_le hj] at hj'
    dsimp only at hj'
    rw [if_neg, if_neg hchain, pointer_isSome] at hj'
    · exact ⟨_, _, hj' type hcall⟩
    · rw [Bool.or_eq_true, Bool.and_eq_true, bne_iff_ne, decide_eq_true_eq]
      rintro (hfunction | ⟨hname, hmap⟩)
      · exact hcall.1 hfunction
      · rcases hfn with hname' | hmap'
        · exact hname hname'
        · rw [hmap'] at hmap
          cases hmap
  | @nested depth start j s nested type hj hfield hsystem hcall ih =>
    rw [nullBoundaryPointers, eachField_isSome] at h
    have hj' := h (j - start) (.struct nested) (by rw [List.getElem?_drop, Nat.add_sub_of_le hj, hfield])
    rw [Nat.add_sub_of_le hj] at hj'
    dsimp only at hj'
    rw [if_neg (by rw [hsystem]; decide)] at hj'
    exact ih hj'

omit [DecidableEq σ] in
/-- The walk gets past a field unless that is a chain into a struct that has been visited. -/
theorem Reaches.succ {visited : Finset σ} {s : σ} {i : Nat} (h : Reaches M visited s i)
    (hi : ∀ pointee, (M.fields s)[i]? = some (.ptr pointee) → M.isChain s i pointee → s ∉ visited) :
    Reaches M visited s (i + 1) := by
  intro hs j hj pointee hfield hchain
  rcases Nat.lt_succ_iff_lt_or_eq.mp hj with hj | rfl
  · exact h hs j hj pointee hfield hchain
  · exact hi pointee hfield hchain hs

/-- A nested struct that is no vector is initialised like any other. -/
theorem initializeNested_of_not_vec {visited : Finset σ} {nested : σ} {slot : Slot σ} {structName : String}
    {index : Nat} {name : String}
    (h : M.checkStructVecElem structName index = none ∨ vecRaw M nested = none) :
    initializeNested M call visited slot nested structName index name =
      initializeInnerStruct M call visited slot nested structName index name := by
  unfold initializeNested
  split
  · rename_i helement hraw
    rw [helement, hraw] at h
    rcases h with h | h <;> cases h
  · rfl

/-- A nested struct is done if the calls for it return. -/
theorem nested_isSome {visited : Finset σ} {s nested : σ} {slot : Slot σ} {name : String} {i : Nat}
    (hfield : (M.fields s)[i]? = some (.struct nested))
    (h : ∀ type, FieldCall M visited s i visited type → ∀ slot name,
      (call ⟨visited, type, slot, name⟩).isSome) :
    (initializeNested M call visited slot nested (M.name s) i name).isSome := by
  unfold initializeNested
  split
  · rename_i element raw helement hraw
    rw [bindVecElement, Option.isSome_map, pointer_isSome]
    exact fun type htype => h type (.vecElement hfield helement hraw htype) _ _
  · rename_i hvec
    have hnone : M.checkStructVecElem (M.name s) i = none ∨ vecRaw M nested = none := by
      cases helement : M.checkStructVecElem (M.name s) i with
      | none => exact .inl rfl
      | some element =>
        cases hraw : vecRaw M nested with
        | none => exact .inr rfl
        | some raw => exact absurd hraw (hvec element raw helement)
    unfold initializeInnerStruct
    split
    · rfl
    · rename_i target htarget
      split
      · rename_i hinside
        exact h _ (.inside hfield hnone htarget hinside) _ _
      · rename_i hcopied
        rw [Option.isSome_map]
        exact h _ (.copied hfield hnone htarget (Bool.eq_false_iff.mpr hcopied)) _ _

/-- **The walk at a struct is done** if the calls for its fields return. -/
theorem fields_isSome {visited : Finset σ} {s : σ} {slot : Slot σ} {name : String} {i : Nat}
    (hreaches : Reaches M visited s i) (h : ∀ j visited' type, i ≤ j → Reaches M visited s j →
      FieldCall M visited s j visited' type → ∀ slot name, (call ⟨visited', type, slot, name⟩).isSome)
    {types : List (LType σ)} (htypes : types = (M.fields s).drop i) :
    (initializeFields M call visited s slot name i types).isSome := by
  induction types generalizing i with
  | nil => rfl
  | cons type types ih =>
    have hfield : (M.fields s)[i]? = some type := by
      rw [← List.head?_drop, ← htypes]
      rfl
    have hrest : types = (M.fields s).drop (i + 1) := by
      rw [← List.tail_drop, ← htypes]
      rfl
    have hnext : ∀ j visited' type, i + 1 ≤ j → Reaches M visited s j →
        FieldCall M visited s j visited' type → ∀ slot name,
          (call ⟨visited', type, slot, name⟩).isSome :=
      fun j visited' type hj => h j visited' type (by omega)
    have hgo : (∀ pointee, type = .ptr pointee → M.isChain s i pointee → s ∉ visited) →
        (initializeFields M call visited s slot name (i + 1) types).isSome := by
      refine fun hstop => ih (hreaches.succ fun pointee hpointee => ?_) hnext hrest
      rw [hfield] at hpointee
      exact hstop pointee (Option.some.inj hpointee)
    cases type with
    | ptr pointee =>
      unfold initializeFields
      split
      · rename_i hstop
        rw [Option.isSome_map]
        exact boundary_isSome fun type htype =>
          h i _ type (Nat.le_refl i) hreaches (.boundary hfield hstop.1 hstop.2 htype)
      · rename_i hstop
        have hpointer : ∀ visited', (M.isChain s i pointee → visited' = insert s visited) →
            (¬ M.isChain s i pointee → visited' = visited) → ∀ slot name,
              (initializeInnerPointer M call visited' slot pointee (M.name s) i name true).isSome := by
          intro visited' hinsert hsame slot name
          rw [pointer_isSome]
          intro type htype
          by_cases hchain : M.isChain s i pointee
          · rw [hinsert hchain]
            exact h i _ type (Nat.le_refl i) hreaches
              (.chain hfield hchain (fun hs => hstop ⟨hchain, hs⟩) htype) _ _
          · rw [hsame hchain]
            exact h i _ type (Nat.le_refl i) hreaches (.pointer hfield hchain htype) _ _
        obtain ⟨actions, hactions⟩ := Option.isSome_iff_exists.mp
          (hpointer (if M.isChain s i pointee then insert s visited else visited)
            (fun hchain => if_pos hchain) (fun hchain => if_neg hchain) (slot ++ [.field s i])
            (fieldName name i))
        rw [hactions, Option.bind_some, Option.isSome_map]
        refine hgo fun pointee' heq hchain hs => ?_
        cases heq
        exact hstop ⟨hchain, hs⟩
    | struct nested =>
      unfold initializeFields
      have hnested : (initializeNested M call visited (slot ++ [.field s i]) nested (M.name s) i
          (fieldName name i)).isSome :=
        nested_isSome hfield fun type htype => h i _ type (Nat.le_refl i) hreaches htype
      obtain ⟨actions, hactions⟩ := Option.isSome_iff_exists.mp hnested
      rw [hactions, Option.bind_some, Option.isSome_map]
      exact hgo nofun
    | _ => exact hgo nofun

omit [DecidableEq σ] in
/-- A computation that is done has its first part done, and the rest. -/
theorem isSome_of_bind {a : Option (Actions σ)} {k : Actions σ → Option (Actions σ)}
    (h : (a.bind k).isSome) : ∃ actions, a = some actions ∧ (k actions).isSome := by
  obtain ⟨r, hr⟩ := Option.isSome_iff_exists.mp h
  obtain ⟨actions, ha, hk⟩ := Option.bind_eq_some_iff.mp hr
  exact ⟨actions, ha, Option.isSome_of_eq_some hk⟩

/-- What is done for a field, where the walk goes on. -/
theorem field_calls {visited : Finset σ} {s : σ} {slot : Slot σ} {name : String} {i : Nat}
    {visited' : Finset σ} {type : LType σ} (hcall : FieldCall M visited s i visited' type)
    {first : LType σ} {types : List (LType σ)} (hfirst : (M.fields s)[i]? = some first)
    (h : (initializeFields M call visited s slot name i (first :: types)).isSome) :
    ∃ slot name, (call ⟨visited', type, slot, name⟩).isSome := by
  cases hcall with
  | pointer hfield hchain hcall =>
    obtain rfl := Option.some.inj (hfirst.symm.trans hfield)
    unfold initializeFields at h
    rw [if_neg fun hstop => hchain hstop.1] at h
    obtain ⟨actions, hactions, -⟩ := isSome_of_bind h
    rw [if_neg hchain] at hactions
    exact ⟨_, _, pointer_isSome.mp (Option.isSome_of_eq_some hactions) type hcall⟩
  | chain hfield hchain hs hcall =>
    obtain rfl := Option.some.inj (hfirst.symm.trans hfield)
    unfold initializeFields at h
    rw [if_neg fun hstop => hs hstop.2] at h
    obtain ⟨actions, hactions, -⟩ := isSome_of_bind h
    rw [if_pos hchain] at hactions
    exact ⟨_, _, pointer_isSome.mp (Option.isSome_of_eq_some hactions) type hcall⟩
  | boundary hfield hchain hs hcall =>
    obtain rfl := Option.some.inj (hfirst.symm.trans hfield)
    unfold initializeFields at h
    rw [if_pos ⟨hchain, hs⟩, Option.isSome_map] at h
    exact boundary_calls hcall h
  | vecElement hfield helement hraw hcall =>
    obtain rfl := Option.some.inj (hfirst.symm.trans hfield)
    unfold initializeFields at h
    obtain ⟨actions, hactions, -⟩ := isSome_of_bind h
    rw [initializeNested, helement, hraw] at hactions
    dsimp only at hactions
    have hsome := Option.isSome_of_eq_some hactions
    rw [bindVecElement, Option.isSome_map, pointer_isSome] at hsome
    exact ⟨_, _, hsome type hcall⟩
  | inside hfield hvec htarget hsystem =>
    obtain rfl := Option.some.inj (hfirst.symm.trans hfield)
    unfold initializeFields at h
    obtain ⟨actions, hactions, -⟩ := isSome_of_bind h
    rw [initializeNested_of_not_vec hvec, initializeInnerStruct, htarget] at hactions
    dsimp only at hactions
    rw [if_pos hsystem] at hactions
    exact ⟨_, _, Option.isSome_of_eq_some hactions⟩
  | copied hfield hvec htarget hsystem =>
    obtain rfl := Option.some.inj (hfirst.symm.trans hfield)
    unfold initializeFields at h
    obtain ⟨actions, hactions, -⟩ := isSome_of_bind h
    rw [initializeNested_of_not_vec hvec, initializeInnerStruct, htarget] at hactions
    dsimp only at hactions
    rw [if_neg (Bool.eq_false_iff.mp hsystem)] at hactions
    have hsome := Option.isSome_of_eq_some hactions
    rw [Option.isSome_map] at hsome
    exact ⟨_, _, hsome⟩

/-- **The calls for the fields of a struct that is done have returned.** -/
theorem fields_calls {visited : Finset σ} {s : σ} {slot : Slot σ} {name : String} {i j : Nat}
    {visited' : Finset σ} {type : LType σ} (hij : i ≤ j) (hreaches : Reaches M visited s j)
    (hcall : FieldCall M visited s j visited' type) {types : List (LType σ)}
    (htypes : types = (M.fields s).drop i)
    (h : (initializeFields M call visited s slot name i types).isSome) :
    ∃ slot name, (call ⟨visited', type, slot, name⟩).isSome := by
  induction types generalizing i with
  | nil =>
    have hlength : j < (M.fields s).length := by
      cases hcall <;> exact (List.getElem?_eq_some_iff.mp ‹_›).1
    have := List.drop_eq_nil_iff.mp htypes.symm
    omega
  | cons first types ih =>
    have hfirst : (M.fields s)[i]? = some first := by
      rw [← List.head?_drop, ← htypes]
      rfl
    have hrest : types = (M.fields s).drop (i + 1) := by
      rw [← List.tail_drop, ← htypes]
      rfl
    rcases Nat.eq_or_lt_of_le hij with rfl | hlt
    · exact field_calls hcall hfirst h
    · cases first with
      | ptr pointee =>
        unfold initializeFields at h
        rw [if_neg fun hstop => hreaches hstop.2 i hlt pointee hfirst hstop.1] at h
        obtain ⟨actions, -, hgo⟩ := isSome_of_bind h
        rw [Option.isSome_map] at hgo
        exact ih hlt hrest hgo
      | struct nested =>
        unfold initializeFields at h
        obtain ⟨actions, -, hgo⟩ := isSome_of_bind h
        rw [Option.isSome_map] at hgo
        exact ih hlt hrest hgo
      | _ => exact ih hlt hrest h

/-! ## Where the walk comes to -/

/-- A pointer that no field of a named struct holds leads to what it points to. -/
theorem getTargetType_empty (type : LType σ) (index : Nat) :
    M.getTargetType type "" index = some ((type.struct?.bind M.standardTarget).getD type) := by
  unfold Module.getTargetType
  split
  · rename_i target htarget
    rw [htarget]
    rfl
  · rename_i hnone
    rw [hnone]
    rfl

/-- The target that the standard chain gives is always a struct. -/
theorem standardTarget_struct {s : σ} {type : LType σ} (h : M.standardTarget s = some type) :
    ∃ t, type = .struct t := by
  unfold Module.standardTarget at h
  dsimp only at h
  split at h
  · exact ⟨_, (Option.some.inj h).symm⟩
  · split at h
    · exact ⟨_, (Option.some.inj h).symm⟩
    · split at h
      · exact ⟨_, (Option.some.inj h).symm⟩
      · cases h

omit [DecidableEq σ] in
/-- The object for a struct is of a struct, or there is nothing in it. -/
theorem objectType_struct (s : σ) : objectType M (.struct s) = .struct s ∨
    (objectType M (.struct s) = .array 2 (.int 8) ∧ M.isSystemStruct s = true) := by
  unfold objectType
  dsimp only
  split
  · rename_i hsystem
    exact .inr ⟨rfl, (Bool.and_eq_true_iff.mp hsystem).1⟩
  · exact .inl rfl

/-- A call that does nothing returns. -/
theorem terminates_trivial {c : InitCall σ} (h : ∀ call, initializeInnerObjects M call c = some []) :
    Terminates (initializeInnerObjects M) c :=
  ⟨[], 1, h _⟩

/-- An array is walked like its first element. -/
theorem terminates_array {visited : Finset σ} {s : σ} {slot : Slot σ} {name : String} {size : Nat}
    (hsize : size ≠ 0)
    (h : Terminates (initializeInnerObjects M) ⟨visited, .struct s, slot ++ [.first], name⟩) :
    Terminates (initializeInnerObjects M) ⟨visited, .array size (.struct s), slot, name⟩ := by
  obtain ⟨r, n, hn⟩ := h
  cases n with
  | zero => cases hn
  | succ n =>
    refine ⟨r, n + 1, ?_⟩
    rw [approx, initializeInnerObjects] at hn ⊢
    dsimp only at hn ⊢
    rwa [if_neg hsize]

/-- **A walk ends if the one from the struct that it comes to does.** -/
theorem terminates_type {visited : Finset σ} (type : LType σ)
    (h : ∀ s, arrival M type = some s → ∀ slot name,
      Terminates (initializeInnerObjects M) ⟨visited, .struct s, slot, name⟩) (slot : Slot σ)
    (name : String) : Terminates (initializeInnerObjects M) ⟨visited, type, slot, name⟩ := by
  induction type generalizing slot with
  | struct s => exact h s rfl slot name
  | array size element ih =>
    clear ih
    cases element with
    | struct s =>
      by_cases hsize : size = 0
      · refine terminates_trivial fun call => ?_
        rw [initializeInnerObjects]
        exact if_pos hsize
      · exact terminates_array hsize (h s (if_neg hsize) _ _)
    | _ => exact terminates_trivial fun _ => rfl
  | ptr pointee ih =>
    refine terminates_of determined_init fun call _ hcall => ?_
    rw [initializeInnerObjects]
    dsimp only
    rw [pointer_isSome]
    rintro type ⟨-, target, htarget, rfl⟩
    refine hcall _ ?_
    cases pointee with
    | struct s =>
      have harrival : arrival M (.ptr (.struct s)) = target.struct? := by
        rw [arrival, htarget]
        rfl
      have hstruct : ∃ t, target = .struct t := by
        rw [getTargetType_empty] at htarget
        obtain rfl := Option.some.inj htarget
        cases hstandard : M.standardTarget s with
        | none =>
          refine ⟨s, ?_⟩
          show (M.standardTarget s).getD _ = _
          rw [hstandard]
          rfl
        | some type =>
          obtain ⟨t, rfl⟩ := standardTarget_struct hstandard
          refine ⟨t, ?_⟩
          show (M.standardTarget s).getD _ = _
          rw [hstandard]
          rfl
      obtain ⟨t, rfl⟩ := hstruct
      rcases objectType_struct (M := M) t with hobject | ⟨hobject, -⟩
      · rw [hobject]
        exact h t harrival _ _
      · rw [hobject]
        exact terminates_trivial fun _ => rfl
    | array size element =>
      rw [getTargetType_empty] at htarget
      obtain rfl := Option.some.inj htarget
      cases element with
      | struct s =>
        cases size with
        | zero => exact terminates_array (by decide) (h s rfl _ _)
        | succ size => exact terminates_array (Nat.succ_ne_zero size) (h s rfl _ _)
      | _ => cases size <;> exact terminates_trivial fun _ => rfl
    | ptr pointee =>
      rw [getTargetType_empty] at htarget
      obtain rfl := Option.some.inj htarget
      exact ih h _
    | _ =>
      rw [getTargetType_empty] at htarget
      obtain rfl := Option.some.inj htarget
      exact terminates_trivial fun _ => rfl
  | _ => exact terminates_trivial fun _ => rfl

/-- **A walk whose steps come to an end ends.** -/
theorem terminates_of_acc {node : Finset σ × σ} (h : Acc (fun next node => StructStep M node next) node)
    (slot : Slot σ) (name : String) :
    Terminates (initializeInnerObjects M) ⟨node.1, .struct node.2, slot, name⟩ := by
  induction h generalizing slot name with
  | intro node _ ih =>
    refine terminates_of determined_init fun call _ hcall => ?_
    rw [initializeInnerObjects]
    dsimp only
    unfold initializeStruct
    split
    · rfl
    · rename_i hsystem
      refine fields_isSome (fun _ j hj => absurd hj (Nat.not_lt_zero j)) ?_ rfl
      intro j visited' type _ hreaches hfield slot name
      refine hcall _ (terminates_type type (fun s hs => ?_) slot name)
      exact ih (visited', s) ⟨Bool.eq_false_iff.mpr hsystem, j, type, hreaches, hfield, hs⟩

/-- The walk ends at a system struct. -/
theorem acc_system {visited : Finset σ} {s : σ} (h : M.isSystemStruct s = true) :
    Acc (fun next node => StructStep M node next) (visited, s) := by
  refine .intro _ fun next hstep => ?_
  have hsystem : M.isSystemStruct s = false := hstep.1
  rw [h] at hsystem
  cases hsystem

/-- **The steps of a walk that ends come to an end.** -/
theorem acc_of_approx {n : Nat} {visited : Finset σ} {type : LType σ} {slot : Slot σ} {name : String}
    (h : (approx (initializeInnerObjects M) n ⟨visited, type, slot, name⟩).isSome) {s : σ}
    (hs : arrival M type = some s) : Acc (fun next node => StructStep M node next) (visited, s) := by
  induction n generalizing visited type slot name s with
  | zero => cases h
  | succ n ih =>
    have hstruct : ∀ t slot,
        (initializeStruct M (approx (initializeInnerObjects M) n) visited t slot name).isSome →
          Acc (fun next node => StructStep M node next) (visited, t) := by
      intro t slot ht
      refine .intro _ fun next hstep => ?_
      obtain ⟨hsystem, j, type, hreaches, hfield, harrival⟩ := hstep
      rw [initializeStruct, if_neg (Bool.eq_false_iff.mp hsystem)] at ht
      obtain ⟨_, _, hcall⟩ := fields_calls (Nat.zero_le j) hreaches hfield rfl ht
      exact ih hcall harrival
    rw [approx, initializeInnerObjects] at h
    cases type with
    | struct t =>
      obtain rfl := Option.some.inj hs
      exact hstruct t _ h
    | array size element =>
      cases element with
      | struct t =>
        rw [arrival] at hs
        split at hs
        · cases hs
        · rename_i hsize
          obtain rfl := Option.some.inj hs
          dsimp only at h
          rw [if_neg hsize] at h
          exact hstruct t _ h
      | _ => cases hs
    | ptr pointee =>
      dsimp only at h
      rw [pointer_isSome] at h
      cases pointee with
      | struct t =>
        rw [arrival] at hs
        obtain ⟨target, htarget, hstarget⟩ := Option.bind_eq_some_iff.mp hs
        have hcall := h _ ⟨nofun, target, htarget, rfl⟩
        cases target with
        | struct t' =>
          obtain rfl := Option.some.inj hstarget
          rcases objectType_struct (M := M) t' with hobject | ⟨-, hsystem⟩
          · rw [hobject] at hcall
            exact ih hcall rfl
          · exact acc_system hsystem
        | _ => cases hstarget
      | array size element =>
        have hcall := h _ ⟨nofun, _, getTargetType_empty _ _, rfl⟩
        cases element with
        | struct t =>
          cases size with
          | zero => exact ih hcall hs
          | succ size => exact ih hcall hs
        | _ => cases hs
      | ptr pointee =>
        have hcall := h _ ⟨nofun, _, getTargetType_empty _ _, rfl⟩
        exact ih hcall hs
      | _ => cases hs
    | _ => cases hs

/-- **The walks for all types end exactly if no struct is stepped back to** from which a walk can begin,
with the same structs visited. -/
theorem init_terminates_iff [Finite σ] :
    (∀ type slot name, Terminates (initializeInnerObjects M) ⟨∅, type, slot, name⟩) ↔
      ∀ s node, Relation.ReflTransGen (StructStep M) (∅, s) node →
        ¬ Relation.TransGen (StructStep M) node node := by
  have hacc : (∀ s node, Relation.ReflTransGen (StructStep M) (∅, s) node →
      ¬ Relation.TransGen (StructStep M) node node) ↔
        ∀ s, Acc (fun next node => StructStep M node next) ((∅ : Finset σ), s) := by
    have : Finite (Finset σ) := Finite.of_injective _ Finset.coe_injective
    exact forall_congr' fun s => acc_iff_acyclic.symm
  rw [hacc]
  constructor
  · intro h s
    obtain ⟨r, n, hn⟩ := h (.struct s) [] ""
    exact acc_of_approx (Option.isSome_of_eq_some hn) rfl
  · intro h type slot name
    exact terminates_type type (fun s _ slot name => terminates_of_acc (h s) slot name) slot name

end

end Assure
