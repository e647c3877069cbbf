import Assure.Harness.Termination

/-!
# `visited_structs` as it is: one set for both walks

The pass has one set of visited structs. A struct is put in where a field leads from it to a struct, and taken out
behind that field. `Global` has the first walk with this set as a state: each call gets the set that the call before it
left. It always leaves what it got, so that the set is the path to where the walk is, as `initializeInnerObjects` has it
(`global_returns_iff`).

The dump goes on to the next field without taking the struct out where the field is a function pointer for
`struct_map`. `printScoped` is the dump with the path for its set. `visitedStructs_balanced_iff` says that the dump is
this one, and leaves the set alone, exactly where there is no such field.

The condition is on the table of structs with `struct_map`; arguments, labels, buffers and unused
fields are quantified over. What an analysis does with a set that was left wrong is not said.
-/

namespace Assure

open Assure.Library

variable {σ : Type}

/-! ## Calls that leave the set as it was -/

/-- A result together with the set as it was. -/
def unchanged {α : Type} (visited : Finset σ) (result : Option α) : Option (Finset σ × α) := result.map (visited, ·)

/-- Leaving the set alone and having a result says both at once. -/
theorem unchanged_some {α : Type} {visited left : Finset σ} {result : Option α} {a : α} :
    unchanged visited result = some (left, a) ↔ left = visited ∧ result = some a := by
  rw [unchanged, Option.map_eq_some_iff]
  constructor
  · rintro ⟨b, hb, heq⟩
    cases heq
    exact ⟨rfl, hb⟩
  · rintro ⟨rfl, h⟩
    exact ⟨a, h, rfl⟩

/-- What is done with a result that leaves the set as it was. -/
theorem map_unchanged {α β : Type} {visited : Finset σ} {result : Option α} (f : α → β) :
    ((unchanged visited result).map fun done => (done.1, f done.2)) = unchanged visited (result.map f) := by
  cases result <;> rfl

/-- A step that leaves the set alone may be followed by another one. -/
theorem bind_unchanged {α β : Type} {visited : Finset σ} {result : Option α} {k : α → Option β}
    {k' : Finset σ × α → Option (Finset σ × β)} (h : ∀ a, k' (visited, a) = unchanged visited (k a)) :
    (unchanged visited result).bind k' = unchanged visited (result.bind k) := by
  cases result with
  | none => rfl
  | some a => exact h a

/-- Calls that leave the set as it was. -/
def keeping {α β : Type} (visitedOf : β → Finset σ) (call : β → Option α) : β → Option (Finset σ × α) :=
  fun c => unchanged (visitedOf c) (call c)

/-- A function that leaves the set as it was, to any depth. -/
theorem approx_keeping {α β : Type} {visitedOf : β → Finset σ} {body : (β → Option α) → β → Option α}
    {body' : (β → Option (Finset σ × α)) → β → Option (Finset σ × α)}
    (h : ∀ call c, body' (keeping visitedOf call) c = unchanged (visitedOf c) (body call c)) (n : Nat) :
    approx body' n = keeping visitedOf (approx body n) := by
  induction n with
  | zero => rfl
  | succ n ih =>
    funext c
    rw [approx, ih, h]
    rfl

/-- If the body with the set does as the body without it wherever the calls leave the set alone, the
two recursions return the same and the first leaves the set alone. -/
theorem returns_keeping {α β : Type} {visitedOf : β → Finset σ} {body : (β → Option α) → β → Option α}
    {body' : (β → Option (Finset σ × α)) → β → Option (Finset σ × α)}
    (h : ∀ call c, body' (keeping visitedOf call) c = unchanged (visitedOf c) (body call c)) {c : β}
    {left : Finset σ} {a : α} : Returns body' c (left, a) ↔ left = visitedOf c ∧ Returns body c a := by
  unfold Returns
  simp only [approx_keeping h, keeping, unchanged_some, exists_and_left]

/-! ## One set -/

variable [DecidableEq σ]

/-- What a call leaves in `visited_structs`, and what it does. -/
abbrev InitDone (σ : Type) := Finset σ × Actions σ

namespace Global

variable (M : Module σ)

/-- The actions for each field, one field after the other. -/
def eachField (action : Finset σ → Nat → LType σ → Option (InitDone σ)) :
    Finset σ → Nat → List (LType σ) → Option (InitDone σ)
  | visited, _, [] => some (visited, [])
  | visited, i, type :: types =>
    (action visited i type).bind fun first =>
      (eachField action first.1 (i + 1) types).map fun rest => (rest.1, first.2 ++ rest.2)

section

variable (call : InitCall σ → Option (InitDone σ))

/-- **`initialize_inner_pointer`** -/
def initializeInnerPointer (visited : Finset σ) (slot : Slot σ) (pointee : LType σ) (structName : String)
    (index : Nat) (name : String) (fromStruct : Bool) : Option (InitDone σ) :=
  if pointee = .function then some (visited, [])
  else
    match M.getTargetType pointee structName index with
    | none => some (visited, [])
    | some target =>
      let recorded := if fromStruct && (target ≠ pointee || target.struct?.isNone) then some name else none
      (call ⟨visited, objectType M target, [], name⟩).map fun done =>
        (done.1, [.node (.object slot target (isMarked M target false) recorded) done.2])

/-- **`initialize_inner_struct`** -/
def initializeInnerStruct (visited : Finset σ) (slot : Slot σ) (nested : σ) (structName : String) (index : Nat)
    (name : String) : Option (InitDone σ) :=
  match M.getTargetType (.struct nested) structName index with
  | none => some (visited, [])
  | some target =>
    if target.struct?.any fun s => M.allocSize s != 0 && !M.isSystemStruct s then
      call ⟨visited, target, slot, name⟩
    else
      (call ⟨visited, objectType M target, [], name⟩).map fun done =>
        (done.1, [.node (.copied slot target (isMarked M target false)) done.2])

/-- **`bind_vec_element`** -/
def bindVecElement (visited : Finset σ) (slot : Slot σ) (vec raw element : σ) (name : String) :
    Option (InitDone σ) :=
  (initializeInnerPointer M call visited (slot ++ [Hop.field vec 0, Hop.field raw 0]) (.struct element) "" 0
    name true).map fun done => (done.1, .node (.vecElement slot vec raw) [] :: done.2)

/-- A nested struct: a `Vec` with a struct for its elements, or any other. -/
def initializeNested (visited : Finset σ) (slot : Slot σ) (nested : σ) (structName : String) (index : Nat)
    (name : String) : Option (InitDone σ) :=
  match M.checkStructVecElem structName index, vecRaw M nested with
  | some element, some raw => bindVecElement M call visited slot nested raw element name
  | _, _ => initializeInnerStruct M call visited slot nested structName index name

/-- **`null_boundary_pointers`**, for structs nested so deep. -/
def nullBoundaryPointers : Nat → Finset σ → σ → Slot σ → Nat → String → Option (InitDone σ)
  | 0, visited, _, _, _, _ => some (visited, [])
  | depth + 1, visited, s, slot, start, name =>
    eachField (fun visited j type =>
      match type with
      | .ptr pointee =>
        if pointee = .function || (M.name s != "" && M.checkStructFunctionPtr (M.name s) j) then some (visited, [])
        else if M.isChain s j pointee then
          some (visited, [.node (.null (slot ++ [Hop.field s j])) []])
        else
          initializeInnerPointer M call visited (slot ++ [Hop.field s j]) pointee (M.name s) j
            (fieldName name j) true
      | .struct nested =>
        if M.isSystemStruct nested then some (visited, [])
        else
          nullBoundaryPointers depth visited (boundaryTarget M (M.name s) j nested) (slot ++ [Hop.field s j]) 0
            (fieldName name j)
      | _ => some (visited, [])) visited start ((M.fields s).drop start)

/-- The fields of a struct from one on: a struct is in the set while a field of it is followed. -/
def initializeFields (s : σ) (slot : Slot σ) (name : String) :
    Finset σ → Nat → List (LType σ) → Option (InitDone σ)
  | visited, _, [] => some (visited, constrainSliceLen M 4 s slot)
  | visited, i, .ptr pointee :: types =>
    if M.isChain s i pointee ∧ s ∈ visited then
      (nullBoundaryPointers M call 5 visited s slot i name).map fun done =>
        (done.1, .node (.boundary slot s i name) [] :: done.2)
    else
      (initializeInnerPointer M call (if M.isChain s i pointee then insert s visited else visited)
        (slot ++ [Hop.field s i]) pointee (M.name s) i (fieldName name i) true).bind fun first =>
          (initializeFields s slot name (if M.isChain s i pointee then first.1.erase s else first.1) (i + 1)
            types).map fun rest => (rest.1, first.2 ++ rest.2)
  | visited, i, .struct nested :: types =>
    (initializeNested M call visited (slot ++ [Hop.field s i]) nested (M.name s) i
      (fieldName name i)).bind fun first =>
        (initializeFields s slot name first.1 (i + 1) types).map fun rest => (rest.1, first.2 ++ rest.2)
  | visited, i, _ :: types => initializeFields s slot name visited (i + 1) types

/-- The walk at a struct. -/
def initializeStruct (visited : Finset σ) (s : σ) (slot : Slot σ) (name : String) : Option (InitDone σ) :=
  if M.isSystemStruct s then some (visited, [])
  else initializeFields M call s slot name visited 0 (M.fields s)

end

/-- **`initialize_inner_objects`** -/
def initializeInnerObjects (call : InitCall σ → Option (InitDone σ)) (c : InitCall σ) : Option (InitDone σ) :=
  match c.type with
  | .ptr pointee => initializeInnerPointer M call c.visited c.slot pointee "" 0 c.name false
  | .array size (.struct s) =>
    if size = 0 then some (c.visited, []) else initializeStruct M call c.visited s (c.slot ++ [Hop.first]) c.name
  | .struct s => initializeStruct M call c.visited s c.slot c.name
  | _ => some (c.visited, [])

end Global

/-! ## The first walk -/

section

variable {M : Module σ} {call : InitCall σ → Option (Actions σ)}

omit [DecidableEq σ] in
/-- A walk over fields leaves the set alone if every action does. -/
theorem eachField_unchanged {action : Nat → LType σ → Option (Actions σ)}
    {action' : Finset σ → Nat → LType σ → Option (InitDone σ)} {visited : Finset σ}
    (h : ∀ i type, action' visited i type = unchanged visited (action i type)) : ∀ (types : List (LType σ)) (i : Nat),
      Global.eachField action' visited i types = unchanged visited (eachField action i types)
  | [], _ => rfl
  | type :: types, i => by
    rw [Global.eachField, eachField, h]
    refine bind_unchanged fun first => ?_
    rw [eachField_unchanged h types (i + 1)]
    exact map_unchanged _

/-- Initialising what a pointer leads to leaves the set alone if the calls do. -/
theorem pointer_unchanged (visited : Finset σ) (slot : Slot σ) (pointee : LType σ) (structName : String)
    (index : Nat) (name : String) (fromStruct : Bool) :
    Global.initializeInnerPointer M (keeping InitCall.visited call) visited slot pointee structName index name
      fromStruct =
      unchanged visited (initializeInnerPointer M call visited slot pointee structName index name fromStruct) := by
  unfold Global.initializeInnerPointer initializeInnerPointer
  split
  · rfl
  · cases M.getTargetType pointee structName index with
    | none => rfl
    | some target =>
      dsimp only [keeping]
      cases call ⟨visited, objectType M target, [], name⟩ <;> rfl

/-- So does initialising a nested struct. -/
theorem nested_unchanged (visited : Finset σ) (slot : Slot σ) (nested : σ) (structName : String) (index : Nat)
    (name : String) :
    Global.initializeNested M (keeping InitCall.visited call) visited slot nested structName index name =
      unchanged visited (initializeNested M call visited slot nested structName index name) := by
  have hstruct : Global.initializeInnerStruct M (keeping InitCall.visited call) visited slot nested structName index name =
      unchanged visited (initializeInnerStruct M call visited slot nested structName index name) := by
    unfold Global.initializeInnerStruct initializeInnerStruct
    cases M.getTargetType (.struct nested) structName index with
    | none => rfl
    | some target =>
      dsimp only [keeping]
      split
      · rfl
      · cases call ⟨visited, objectType M target, [], name⟩ <;> rfl
  unfold Global.initializeNested initializeNested
  cases M.checkStructVecElem structName index with
  | none => exact hstruct
  | some element =>
    cases vecRaw M nested with
    | none => exact hstruct
    | some raw =>
      dsimp only
      unfold Global.bindVecElement bindVecElement
      rw [pointer_unchanged]
      exact map_unchanged _

/-- So does setting the last pointers to null. -/
theorem boundary_unchanged (visited : Finset σ) : ∀ (depth : Nat) (s : σ) (slot : Slot σ) (start : Nat) (name : String),
    Global.nullBoundaryPointers M (keeping InitCall.visited call) depth visited s slot start name =
      unchanged visited (nullBoundaryPointers M call visited depth s slot start name)
  | 0, _, _, _, _ => rfl
  | depth + 1, s, slot, start, name => by
    rw [Global.nullBoundaryPointers, nullBoundaryPointers]
    refine eachField_unchanged (fun j type => ?_) _ _
    cases type with
    | ptr pointee =>
      dsimp only
      split
      · rfl
      · split
        · rfl
        · exact pointer_unchanged _ _ _ _ _ _ _
    | struct nested =>
      dsimp only
      split
      · rfl
      · exact boundary_unchanged visited depth _ _ _ _
    | _ => rfl

/-- **The fields leave the set as it was**: what is put in for a field was not there, and is taken out behind it. -/
theorem fields_unchanged (visited : Finset σ) (s : σ) (slot : Slot σ) (name : String) :
    ∀ (types : List (LType σ)) (i : Nat),
      Global.initializeFields M (keeping InitCall.visited call) s slot name visited i types =
        unchanged visited (initializeFields M call visited s slot name i types)
  | [], _ => rfl
  | .ptr pointee :: types, i => by
    rw [Global.initializeFields, initializeFields]
    split
    · rw [boundary_unchanged]
      exact map_unchanged _
    · rename_i hstop
      rw [pointer_unchanged]
      have hback : (if M.isChain s i pointee then (if M.isChain s i pointee then insert s visited else visited).erase s
          else if M.isChain s i pointee then insert s visited else visited) = visited := by
        by_cases hchain : M.isChain s i pointee
        · simp only [if_pos hchain]
          exact Finset.erase_insert fun hs => hstop ⟨hchain, hs⟩
        · simp only [if_neg hchain]
      cases initializeInnerPointer M call (if M.isChain s i pointee then insert s visited else visited)
          (slot ++ [Hop.field s i]) pointee (M.name s) i (fieldName name i) true with
      | none => rfl
      | some first =>
        have hrest := fields_unchanged visited s slot name types (i + 1)
        simp only [unchanged, Option.map_some, Option.bind_some, hback] at hrest ⊢
        rw [hrest]
        exact map_unchanged _
  | .struct nested :: types, i => by
    rw [Global.initializeFields, initializeFields, nested_unchanged]
    refine bind_unchanged fun first => ?_
    rw [fields_unchanged visited s slot name types (i + 1)]
    exact map_unchanged _
  | .int _ :: types, i => fields_unchanged visited s slot name types (i + 1)
  | .float _ :: types, i => fields_unchanged visited s slot name types (i + 1)
  | .function :: types, i => fields_unchanged visited s slot name types (i + 1)
  | .array _ _ :: types, i => fields_unchanged visited s slot name types (i + 1)

/-- So does initialising a struct: what it puts into the set it takes out again. -/
theorem struct_unchanged (visited : Finset σ) (s : σ) (slot : Slot σ) (name : String) :
    Global.initializeStruct M (keeping InitCall.visited call) visited s slot name =
      unchanged visited (initializeStruct M call visited s slot name) := by
  unfold Global.initializeStruct initializeStruct
  split
  · rfl
  · exact fields_unchanged _ _ _ _ _ _

/-- So does the body of the initialiser. -/
theorem init_unchanged (c : InitCall σ) :
    Global.initializeInnerObjects M (keeping InitCall.visited call) c =
      unchanged c.visited (initializeInnerObjects M call c) := by
  obtain ⟨visited, type, slot, name⟩ := c
  cases type with
  | ptr pointee => exact pointer_unchanged _ _ _ _ _ _ _
  | struct s => exact struct_unchanged _ _ _ _
  | array size element =>
    cases element with
    | struct s =>
      simp only [Global.initializeInnerObjects, initializeInnerObjects]
      split
      · rfl
      · exact struct_unchanged _ _ _ _
    | _ => rfl
  | _ => rfl

/-- **The first walk leaves the set as it was**, and does what it does with the path for its set. -/
theorem global_returns_iff {c : InitCall σ} {left : Finset σ} {actions : Actions σ} :
    Returns (Global.initializeInnerObjects M) c (left, actions) ↔
      left = c.visited ∧ Returns (initializeInnerObjects M) c actions :=
  returns_keeping fun _ _ => init_unchanged _

end

/-! ## The dump -/

variable (M : Module σ) (D : DumpContext σ)

omit [DecidableEq σ] in
/-- What a walk over fields prints if every field gets the same set. -/
def printApart (print : Nat → LType σ → Option (Dumped σ)) : Nat → List (LType σ) → Option (List (Print σ))
  | _, [] => some []
  | i, type :: types =>
    (print i type).bind fun first => (printApart print (i + 1) types).map fun rest => first.2 ++ rest

/-- **The dump with the path for its set**: every field gets the set of its struct. -/
def printScoped (call : DumpCall σ → Option (List (Print σ))) (c : DumpCall σ) : Option (List (Print σ)) :=
  match c.type with
  | .struct s =>
    printApart (printValueField M D (keeping DumpCall.visited call) s c.label c.path c.place c.visited) 0 (M.fields s)
  | .ptr pointee =>
    if pointee.struct?.any M.isSystemStruct then some [.excluded "system_type" c.label]
    else
      let type := if c.label == c.path then recoverLevel (D.rustArgument c.label) c.type else c.type
      let (type, label, place) := loadPointers type c.label c.place
      match decayed type with
      | .ptr .function => some [.excluded "fnptr_field_ir" label]
      | .ptr (.struct s) =>
        printApart (printField M D (keeping DumpCall.visited call) s label c.path place c.hasLength c.visited) 0
          (M.fields s)
      | .ptr (.array _ element) =>
        if element.isNested then
          call ⟨c.visited, .ptr element, label ++ "[0]", c.path ++ "[0]", place ++ [.hop .first], c.hasLength⟩
        else some [.value ("*(" ++ label ++ ")")]
      | _ => some [.read label c.hasLength]
  | _ => some [.value c.label]

/-- **No field that leads to a struct is a function pointer for `struct_map`.** -/
def NoFunctionChain : Prop :=
  ∀ s i pointee, (M.fields s)[i]? = some (.ptr pointee) → M.isChain s i pointee = true →
    M.getTargetType pointee (M.name s) i ≠ none

section

variable {M D} {call : DumpCall σ → Option (List (Print σ))}

omit [DecidableEq σ] in
/-- A walk through a field leaves the set alone if the calls do. -/
theorem FieldWalk.balanced {visited : Finset σ} {type : LType σ} {path : String}
    {walk : (DumpCall σ → Option (Dumped σ)) → Option (Dumped σ)} (h : FieldWalk D visited type path walk)
    {r : Dumped σ} (hr : walk (keeping DumpCall.visited call) = some r) : r.1 = visited := by
  have hcall : ∀ c done, keeping DumpCall.visited call c = some done → done.1 = c.visited :=
    fun c done hdone => (unchanged_some.mp hdone).1
  cases h with
  | ended prints h =>
    obtain rfl := Option.some.inj ((h _).symm.trans hr)
    rfl
  | taken buffer label slot hasLength _ h =>
    obtain ⟨done, hdone, rfl⟩ := Option.map_eq_some_iff.mp ((h _).symm.trans hr)
    exact hcall _ _ hdone
  | into label place hasLength h => exact hcall _ _ ((h _).symm.trans hr)

/-- A target that a field leading to a struct can have is no function. -/
theorem getTargetType_ne_function {s : σ} {i : Nat} {pointee : LType σ} (h : M.isChain s i pointee = true) :
    M.getTargetType pointee (M.name s) i ≠ some .function := by
  intro hget
  rw [Module.isChain, Bool.or_eq_true] at h
  unfold Module.getTargetType at hget
  split at hget
  · rename_i target hstandard
    obtain ⟨t, -, ht⟩ := Option.bind_eq_some_iff.mp hstandard
    obtain ⟨nested, rfl⟩ := standardTarget_struct ht
    cases hget
  · split at hget
    · rcases h with hbox | hstruct
      · rename_i hname
        rw [Module.checkStructBoxPtr, Module.rustType, if_pos hname] at hbox
        cases hbox
      · obtain rfl := Option.some.inj hget
        cases hstruct
    · split at hget
      · cases hget
      · split at hget
        · rename_i hstruct
          obtain rfl := Option.some.inj hget
          cases hstruct
        · rename_i hstruct
          rcases h with hbox | hstruct'
          · obtain ⟨boxed, hboxed⟩ := Option.isSome_iff_exists.mp hbox
            rw [hboxed] at hget
            cases hget
          · exact hstruct hstruct'

/-- **A field of a struct behind a pointer leaves the set as it was**, if it is no function pointer. -/
theorem printField_balanced {s : σ} {i : Nat} {type : LType σ}
    (hfield : ∀ pointee, type = .ptr pointee → M.isChain s i pointee = true →
      M.getTargetType pointee (M.name s) i ≠ none) {label path : String} {place : Place σ} {hasLength : Bool}
    {visited : Finset σ} {r : Dumped σ}
    (hr : printField M D (keeping DumpCall.visited call) s label path place hasLength visited i type = some r) :
    r.1 = visited := by
  unfold printField at hr
  split at hr
  · obtain rfl := Option.some.inj hr
    rfl
  · cases type with
    | ptr pointee =>
      dsimp only at hr
      split at hr
      · obtain rfl := Option.some.inj hr
        rfl
      · rename_i hstop
        by_cases hchain : M.isChain s i pointee = true
        · have hs : s ∉ visited := fun hs => hstop ⟨hchain, hs⟩
          simp only [if_pos hchain] at hr
          split at hr
          · rename_i hnone
            exact absurd hnone (hfield pointee rfl hchain)
          · rename_i hfunction
            exact absurd hfunction (getTargetType_ne_function hchain)
          · obtain ⟨done, hdone, rfl⟩ := Option.map_eq_some_iff.mp hr
            rw [(fieldWalk_converted _ _ _ _ _ _ _ _ _).balanced hdone]
            exact Finset.erase_insert hs
        · simp only [if_neg hchain] at hr
          split at hr
          · obtain rfl := Option.some.inj hr
            rfl
          · obtain rfl := Option.some.inj hr
            rfl
          · obtain ⟨done, hdone, rfl⟩ := Option.map_eq_some_iff.mp hr
            exact (fieldWalk_converted _ _ _ _ _ _ _ _ _).balanced hdone
    | struct nested =>
      dsimp only at hr
      split at hr
      · obtain rfl := Option.some.inj hr
        rfl
      · exact (fieldWalk_converted _ _ _ _ _ _ _ _ _).balanced hr
    | array size element =>
      dsimp only at hr
      split at hr
      · obtain rfl := Option.some.inj hr
        rfl
      · exact (fieldWalk_converted _ _ _ _ _ _ _ _ _).balanced hr
    | _ =>
      obtain rfl := Option.some.inj hr
      rfl

omit [DecidableEq σ] in
/-- Fields that leave the set as it was all get the same one. -/
theorem printFields_unchanged (print : Finset σ → Nat → LType σ → Option (Dumped σ)) {visited : Finset σ} :
    ∀ (types : List (LType σ)) (i : Nat),
      (∀ j type r, types[j]? = some type → print visited (i + j) type = some r → r.1 = visited) →
      printFields print visited i types = unchanged visited (printApart (print visited) i types)
  | [], _, _ => rfl
  | type :: types, i, h => by
    rw [printFields, printApart]
    cases hfirst : print visited i type with
    | none => rfl
    | some first =>
      have hrest := printFields_unchanged print types (i + 1) fun j type' r hj hr => by
        rw [show i + 1 + j = i + (j + 1) by omega] at hr
        exact h (j + 1) type' r hj hr
      rw [Option.bind_some, Option.bind_some, h 0 type first rfl hfirst, hrest]
      exact map_unchanged fun rest => first.2 ++ rest

/-- **Without such fields the dump leaves the set as it was**, and is the one with the path for its set. -/
theorem dump_unchanged (hmap : NoFunctionChain M) (c : DumpCall σ) :
    printNestedKleeExprs M D (keeping DumpCall.visited call) c = unchanged c.visited (printScoped M D call c) := by
  obtain ⟨visited, type, label, path, place, hasLength⟩ := c
  cases type with
  | struct s =>
    exact printFields_unchanged _ _ _ fun j type r _ hr => (fieldWalk_value _ _ _ _ _ _ _).balanced hr
  | ptr pointee =>
    unfold printNestedKleeExprs printScoped
    dsimp only
    split
    · rfl
    · generalize loadPointers (if label == path then recoverLevel (D.rustArgument label) (.ptr pointee)
        else .ptr pointee) label place = loaded
      obtain ⟨type, label, place⟩ := loaded
      dsimp only
      cases decayed type with
      | ptr pointee =>
        cases pointee with
        | struct s =>
          refine printFields_unchanged _ _ _ fun j type r hj hr => ?_
          rw [Nat.zero_add] at hr
          exact printField_balanced (fun pointee htype hchain => hmap s j pointee (htype ▸ hj) hchain) hr
        | array size element =>
          dsimp only
          split <;> rfl
        | _ => rfl
      | _ => rfl
  | _ => rfl

/-! ## A field that is not taken out -/

omit [DecidableEq σ] in
/-- What one field puts in stays in, if no field takes out what it did not put in. -/
theorem printFields_adds {print : Finset σ → Nat → LType σ → Option (Dumped σ)} {s : σ}
    (hkeeps : ∀ visited i type r, print visited i type = some r → visited ⊆ r.1) :
    ∀ {types : List (LType σ)} {visited : Finset σ} {i j : Nat} {type : LType σ} {r : Dumped σ},
      types[j]? = some type → (∀ visited r, print visited (i + j) type = some r → s ∈ r.1) →
      printFields print visited i types = some r → s ∈ r.1
  | first :: types, visited, i, j, type, r, hj, hadds, hr => by
    obtain ⟨done, hdone, hmap⟩ := Option.bind_eq_some_iff.mp hr
    obtain ⟨rest, hrest, rfl⟩ := Option.map_eq_some_iff.mp hmap
    cases j with
    | zero =>
      obtain rfl := Option.some.inj hj
      exact printFields_keeps hkeeps types hrest (hadds visited done hdone)
    | succ j =>
      refine printFields_adds (r := rest) hkeeps (j := j) hj (fun visited r hr => hadds visited r ?_) hrest
      rwa [show i + (j + 1) = i + 1 + j by omega]

/-- What the dump looks at where the target writes the fields with one index only. -/
def onlyWritten (i : Nat) : DumpContext σ := ⟨fun _ => none, [], fun _ => none, fun _ j => j != i⟩

/-- A field that leads to a struct and is a function pointer is left in the set. -/
theorem printField_leaks {s : σ} {i : Nat} {pointee : LType σ} (hchain : M.isChain s i pointee = true)
    (hnone : M.getTargetType pointee (M.name s) i = none) {call : DumpCall σ → Option (Dumped σ)} {label path : String}
    {place : Place σ} {hasLength : Bool} {visited : Finset σ} :
    printField M (onlyWritten i) call s label path place hasLength visited i (.ptr pointee) =
      some (insert s visited, []) := by
  have hused : (onlyWritten i : DumpContext σ).isFieldUnused s i = false := by simp [onlyWritten]
  unfold printField
  rw [hused, Bool.and_false, if_neg Bool.false_ne_true]
  dsimp only
  split
  · rename_i hstop
    rw [Finset.insert_eq_of_mem hstop.2]
  · simp only [hnone]

/-- **A field that leads to a struct and is a function pointer leaves the set larger.** -/
theorem dump_leaks {s : σ} {i : Nat} {pointee : LType σ} (hfield : (M.fields s)[i]? = some (.ptr pointee))
    (hchain : M.isChain s i pointee = true) (hnone : M.getTargetType pointee (M.name s) i = none) :
    ∃ left prints, Returns (printNestedKleeExprs M (onlyWritten i))
      ⟨∅, .ptr (.ptr (.struct s)), "arg_value_0", "arg_value_0", [.argument 0], false⟩ (left, prints) ∧ s ∈ left := by
  let call : DumpCall σ → Option (Dumped σ) := fun _ => none
  let print := printField M (onlyWritten i) call s "*(arg_value_0)" "arg_value_0" [.argument 0, .load] false
  have hskipped : ∀ visited j type, j ≠ i →
      print visited j type = some (visited, [.excluded "unwritten_field" (fieldName "*(arg_value_0)" j)]) := by
    intro visited j type hj
    have hunused : (onlyWritten i : DumpContext σ).isFieldUnused s j = true := by simpa [onlyWritten] using hj
    exact if_pos (by rw [hunused]; rfl)
  have hkeeps : ∀ visited j type r, print visited j type = some r → visited ⊆ r.1 := by
    intro visited j type r hr
    exact (structFieldWalk _ _ _ _ _ _ _ _).keeps (show Keeps call from nofun) hr
  have hisSome : (printFields print ∅ 0 (M.fields s)).isSome := by
    refine printFields_isSome hkeeps fun j type visited hj _ => ?_
    rw [Nat.zero_add]
    by_cases h : j = i
    · subst h
      obtain rfl := Option.some.inj (hj.symm.trans hfield)
      rw [show print visited j (.ptr pointee) = _ from printField_leaks hchain hnone]
      rfl
    · rw [hskipped visited j type h]
      rfl
  obtain ⟨⟨left, prints⟩, hr⟩ := Option.isSome_iff_exists.mp hisSome
  refine ⟨left, prints, ⟨1, hr⟩, ?_⟩
  refine printFields_adds (s := s) hkeeps hfield (fun visited r hleak => ?_) hr
  rw [Nat.zero_add, show print visited i (.ptr pointee) = _ from printField_leaks hchain hnone] at hleak
  obtain rfl := Option.some.inj hleak
  exact Finset.mem_insert_self s visited

end

/-- **Both walks leave `visited_structs` as it was, so that it is the path to where they are, exactly if no field that
leads to a struct is a function pointer for `struct_map`.** -/
theorem visitedStructs_balanced_iff :
    ((∀ c left actions, Returns (Global.initializeInnerObjects M) c (left, actions) →
        left = c.visited ∧ Returns (initializeInnerObjects M) c actions) ∧
      ∀ D c left prints, Returns (printNestedKleeExprs M D) c (left, prints) →
        left = c.visited ∧ Returns (printScoped M D) c prints) ↔ NoFunctionChain M := by
  constructor
  · rintro ⟨-, hdump⟩ s i pointee hfield hchain hnone
    obtain ⟨left, prints, hreturns, hs⟩ := dump_leaks hfield hchain hnone
    rw [(hdump _ _ left prints hreturns).1] at hs
    exact Finset.notMem_empty s hs
  · intro hmap
    exact ⟨fun c left actions h => global_returns_iff.mp h,
      fun D c left prints h => (returns_keeping fun _ _ => dump_unchanged hmap _).mp h⟩

/-- A module where Rust has a callback for every field. -/
def withCallbacks (M : Module σ) : Module σ := { M with structMap := fun _ _ => some "Option<fn()>" }

omit [DecidableEq σ] in
/-- A pointer is no struct. -/
theorem struct?_ptr (pointee : LType σ) : (LType.ptr pointee).struct? = none := rfl

/-- `struct node { struct node *next; }`, where Rust has a callback for the pointer. -/
def callbackNode : Module (Fin 2) := withCallbacks (oneField (.ptr (.struct (Fin.last 1))) 8 (struct?_ptr _))

/-- The struct is still in the set behind the dump of an argument that points to it. -/
theorem visitedStructs_leaked :
    Returns (printNestedKleeExprs callbackNode (onlyWritten 0))
      ⟨∅, .ptr (.struct 1), "arg_value_0", "arg_value_0", [.argument 0], false⟩ ({1}, []) :=
  ⟨1, by decide +kernel⟩

end Assure
