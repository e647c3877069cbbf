import Assure.Harness.InitTermination
import Assure.Harness.DumpTermination
import Mathlib.Algebra.Order.BigOperators.Group.List
import Mathlib.Algebra.Order.Group.Nat

/-!
# When the harness is made

Both walks have to end, for the types of any signature. The guard makes that so except where structs lead
back to themselves through edges that it does not count.

The equivalence is for all signatures whose arguments have objects of a type that
`get_argument_type` can give. Opaque structs are left out. The depth that a walk may need is not
bounded by anything, as the pass itself has no bound.
-/

namespace Assure

open Assure.Library

section

variable {σ : Type} [DecidableEq σ] (M : Module σ)

/-! ## The arguments -/

/-- Making the object of an argument needs the results of finitely many calls. -/
theorem determined_argument (name : String) (argument : Argument σ) :
    Determined fun call => argumentObject M call name argument := by
  unfold argumentObject
  dsimp only
  split
  · exact .const _
  · exact (Determined.call _).map _

/-- So does making those of all arguments. -/
theorem determined_arguments (arguments : List (Argument σ)) : ∀ (rest : List (Argument σ)) (i : Nat),
    Determined fun call => argumentObjects M call arguments i rest
  | [], _ => .const _
  | argument :: rest, i =>
    (determined_argument M _ argument).bind fun _ => (determined_arguments arguments rest (i + 1)).map _

/-- The objects of all arguments are made if every call returns. -/
theorem arguments_isSome {call : InitCall σ → Option (Actions σ)}
    (hcall : ∀ type slot name, (call ⟨∅, type, slot, name⟩).isSome)
    (arguments : List (Argument σ)) : ∀ (rest : List (Argument σ)) (i : Nat),
      (argumentObjects M call arguments i rest).isSome
  | [], _ => rfl
  | argument :: rest, i => by
    have hfirst : (argumentObject M call (argumentName arguments i argument) argument).isSome := by
      unfold argumentObject
      dsimp only
      split
      · rfl
      · rw [Option.isSome_map]
        exact hcall _ _ _
    obtain ⟨actions, hactions⟩ := Option.isSome_iff_exists.mp hfirst
    rw [argumentObjects, hactions, Option.bind_some, Option.isSome_map]
    exact arguments_isSome hcall arguments rest (i + 1)

omit [DecidableEq σ] in
/-- Dumping an argument needs the results of finitely many calls. -/
theorem determined_dumpArgument (label : String) (i : Nat) (argument : Argument σ) (visited : Finset σ) :
    Determined fun call => dumpArgument M call label i argument visited := by
  unfold dumpArgument
  split
  · exact .const _
  · split
    · exact .const _
    · exact .const _
    · exact .const _
    · exact .call _

omit [DecidableEq σ] in
/-- So does dumping all arguments. -/
theorem determined_dumpArguments (arguments : List (Argument σ)) :
    ∀ (rest : List (Argument σ)) (visited : Finset σ) (i : Nat),
      Determined fun call => dumpArguments M call arguments visited i rest
  | [], _, _ => .const _
  | argument :: rest, visited, i =>
    (determined_dumpArgument M _ i argument visited).bind fun first =>
      (determined_dumpArguments arguments rest first.1 (i + 1)).map _

omit [DecidableEq σ] in
/-- All arguments are dumped if every call returns. -/
theorem dumpArguments_isSome {call : DumpCall σ → Option (Dumped σ)} (hcall : ∀ c, (call c).isSome)
    (arguments : List (Argument σ)) : ∀ (rest : List (Argument σ)) (visited : Finset σ) (i : Nat),
      (dumpArguments M call arguments visited i rest).isSome
  | [], _, _ => rfl
  | argument :: rest, visited, i => by
    have hfirst : (dumpArgument M call (dumpLabel arguments i argument) i argument visited).isSome := by
      unfold dumpArgument
      split
      · rfl
      · split
        · rfl
        · rfl
        · rfl
        · exact hcall _
    obtain ⟨first, hdone⟩ := Option.isSome_iff_exists.mp hfirst
    rw [dumpArguments, hdone, Option.bind_some, Option.isSome_map]
    exact dumpArguments_isSome hcall arguments rest first.1 (i + 1)

omit [DecidableEq σ] in
/-- Dumping the result needs the result of one call at most. -/
theorem determined_dumpResult (result : Option (LType σ)) (visited : Finset σ) :
    Determined fun call : DumpCall σ → Option (Dumped σ) => dumpResult call result visited := by
  cases result with
  | none => exact .const _
  | some type => exact .call _

omit [DecidableEq σ] in
/-- The result is dumped if every call returns. -/
theorem dumpResult_isSome {call : DumpCall σ → Option (Dumped σ)} (hcall : ∀ c, (call c).isSome)
    (result : Option (LType σ)) (visited : Finset σ) : (dumpResult call result visited).isSome := by
  cases result with
  | none => rfl
  | some type => exact hcall _

omit [DecidableEq σ] in
/-- The paths under which buffers are recorded are finitely many. -/
theorem leafBuffers_bounded (objects : List (Actions σ)) :
    ∃ bound, ∀ path buffer, leafBuffers objects path = some buffer → path.length < bound := by
  unfold leafBuffers
  generalize (objects.zipIdx.flatMap fun object => recordedOf object.2 object.1).reverse = entries
  refine ⟨(entries.map fun entry => entry.1.length).sum + 1, ?_⟩
  intro path buffer h
  obtain ⟨entry, hentry, rfl⟩ := Option.map_eq_some_iff.mp h
  have hpath : entry.1 = path := of_decide_eq_true (List.find?_some hentry :)
  have hmem := List.mem_map_of_mem (f := fun entry => entry.1.length) (List.mem_of_find?_eq_some hentry)
  have hle := List.le_sum_of_mem hmem
  rw [← hpath]
  omega

/-! ## The walks -/

variable {M}

/-- The harness is made if both walks end. -/
theorem harness_isSome (hinit : ∀ type slot name, Terminates (initializeInnerObjects M) ⟨∅, type, slot, name⟩)
    (hdump : ∀ objects rustArgument isFieldUnused c,
      Terminates (printNestedKleeExprs M (dumpContext objects rustArgument isFieldUnused)) c)
    (signature : Signature σ) (rustArgument : String → Option String) (isFieldUnused : σ → Nat → Bool) :
    ∃ depth, (harness M depth signature rustArgument isFieldUnused).isSome := by
  obtain ⟨init, hsound, hsome⟩ := exists_results (initializeInnerObjects M)
  obtain ⟨objects, hobjects⟩ := Option.isSome_iff_exists.mp
    (arguments_isSome M (fun _ _ _ => hsome _ (hinit _ _ _)) signature.arguments signature.arguments 0)
  obtain ⟨n, hn⟩ := (determined_arguments M signature.arguments signature.arguments 0).eventually
    determined_init hsound hobjects
  obtain ⟨dump, hdsound, hdsome⟩ :=
    exists_results (printNestedKleeExprs M (dumpContext objects rustArgument isFieldUnused))
  have hall : ∀ c, (dump c).isSome := fun c => hdsome c (hdump _ _ _ c)
  obtain ⟨arguments, harguments⟩ := Option.isSome_iff_exists.mp
    (dumpArguments_isSome M hall signature.arguments signature.arguments ∅ 0)
  obtain ⟨m, hm⟩ := (determined_dumpArguments M signature.arguments signature.arguments ∅ 0).eventually
    determined_dump hdsound harguments
  obtain ⟨result, hresult⟩ :=
    Option.isSome_iff_exists.mp (dumpResult_isSome hall signature.result arguments.1)
  obtain ⟨k, hk⟩ := (determined_dumpResult signature.result arguments.1).eventually determined_dump hdsound
    hresult
  refine ⟨max n (max m k), ?_⟩
  unfold harness
  rw [hn _ (by omega), Option.bind_some]
  dsimp only
  rw [hm _ (by omega), Option.bind_some, hk _ (by omega)]
  rfl

/-- The argument of a function that takes a reference to an array of one struct. -/
def arrayArgument (s : σ) : Argument σ := ⟨.ptr (.array 1 (.struct s)), some (.ptr (.array 1 (.struct s))), false⟩

/-- **For an argument that leads to a struct the walk before the call is made.** -/
theorem acc_of_harness {s : σ} {type : LType σ} {depth : Nat} {rustArgument : String → Option String}
    {isFieldUnused : σ → Nat → Bool} (hs : arrival M (.ptr type) = some s) (htype : type ≠ .function)
    (h : (harness M depth ⟨[⟨.ptr type, some (.ptr type), false⟩], none⟩ rustArgument isFieldUnused).isSome) :
    Acc (fun next node => StructStep M node next) ((∅ : Finset σ), s) := by
  obtain ⟨r, hr⟩ := Option.isSome_iff_exists.mp h
  obtain ⟨objects, hobjects, -⟩ := Option.bind_eq_some_iff.mp hr
  obtain ⟨actions, hactions, -⟩ := Option.bind_eq_some_iff.mp hobjects
  have hnot : ¬ LType.ptr type = LType.ptr .function := fun heq => htype (LType.ptr.inj heq)
  rw [argumentObject, Option.getD_some, if_neg hnot] at hactions
  obtain ⟨below, hbelow, -⟩ := Option.map_eq_some_iff.mp hactions
  exact acc_of_approx (Option.isSome_of_eq_some hbelow) hs

/-- For a result that is a pointer to a pointer to a struct the dump is made. -/
theorem acc_of_harness_result {s : σ} {depth : Nat}
    (h : (harness M depth ⟨[], some (.ptr (.ptr (.struct s)))⟩ (fun _ => none) fun _ _ => false).isSome) :
    Acc (fun next s => DumpStep M s next) s := by
  obtain ⟨r, hr⟩ := Option.isSome_iff_exists.mp h
  obtain ⟨result, hresult, -⟩ := Option.map_eq_some_iff.mp hr
  by_contra hacc
  have hs : dumpArrival M true (.ptr (.struct s)) = some s := rfl
  exact dump_diverges hs hacc _ _ _ _ _ ⟨result, depth, hresult⟩

/-- **The harness of every function is made exactly if neither walk can step back** to a struct it comes
from: the one before the call with the same structs visited, and the dump unguarded. -/
theorem harness_terminates_iff [Fintype σ] :
    (∀ signature : Signature σ, (∀ argument ∈ signature.arguments, argument.Typed) →
      ∀ rustArgument isFieldUnused, ∃ depth, (harness M depth signature rustArgument isFieldUnused).isSome) ↔
      (∀ s node, Relation.ReflTransGen (StructStep M) (∅, s) node →
        ¬ Relation.TransGen (StructStep M) node node) ∧
      ∀ s, ¬ Relation.TransGen (DumpStep M) s s := by
  constructor
  · intro h
    refine ⟨fun s => ?_, fun s => ?_⟩
    · have htyped : ∀ argument ∈ [arrayArgument s], argument.Typed := fun argument hargument target htarget => by
        obtain rfl := List.mem_singleton.mp hargument
        exact .inl (Option.some.inj htarget).symm
      obtain ⟨depth, hdepth⟩ := h ⟨[arrayArgument s], none⟩ htyped (fun _ => none) fun _ _ => false
      have harrival : arrival M (.ptr (.array 1 (.struct s))) = some s := rfl
      exact acc_iff_acyclic.mp (acc_of_harness harrival nofun hdepth)
    · obtain ⟨depth, hdepth⟩ := h ⟨[], some (.ptr (.ptr (.struct s)))⟩ (fun _ => nofun) (fun _ => none)
        fun _ _ => false
      exact not_cycle_of_acc (acc_of_harness_result hdepth)
  · rintro ⟨hinit, hdump⟩
    refine fun signature _ => harness_isSome (init_terminates_iff.mpr hinit) ?_ signature
    intro objects rustArgument isFieldUnused c
    obtain ⟨bound, hbound⟩ := leafBuffers_bounded objects
    exact dump_terminates hbound (fun s => acc_iff_acyclic.mpr fun t _ => hdump t) c

end

/-! ## Two structs that lead back to themselves -/

/-- A module with one struct, `node`, of one field that is no struct. -/
def oneField (field : LType (Fin 2)) (size : Nat) (hfield : field.struct? = none) : Module (Fin 2) where
  struct s := if s = 0 then ⟨"cstr_struct", [.array 100 (.int 8)]⟩ else ⟨"node", [field]⟩
  allocSize s := if s = 0 then 100 else size
  byName name := if name = "node" then some 1 else none
  structMap _ _ := none
  cstrStruct := 0
  sized := by
    refine ⟨fun s => .intro s fun inner hinner => ?_⟩
    split at hinner
    · cases List.mem_singleton.mp hinner
    · rw [← List.mem_singleton.mp hinner] at hfield
      cases hfield
  name_of_byName name s h := by
    obtain ⟨rfl, hs⟩ := Option.ite_none_right_eq_some.mp h
    obtain rfl := Option.some.inj hs
    rfl
  struct_cstr := rfl
  size_cstr := rfl

/-- `struct node { struct node **next; }` -/
def doublePointer : Module (Fin 2) := oneField (.ptr (.ptr (.struct 1))) 8 rfl

/-- `struct node { struct node *child[4]; }` -/
def childArray : Module (Fin 2) := oneField (.array 4 (.ptr (.struct 1))) 32 rfl

/-- Neither harness is made: the first walk does not end for one, the dump not for the other. -/
theorem harness_diverges :
    (¬ ∃ depth, (harness doublePointer depth ⟨[⟨.ptr (.struct 1), some (.ptr (.struct 1)), false⟩], none⟩
      (fun _ => none) fun _ _ => false).isSome) ∧
    ¬ ∃ depth, (harness childArray depth ⟨[], some (.ptr (.ptr (.struct 1)))⟩
      (fun _ => none) fun _ _ => false).isSome := by
  constructor
  · rintro ⟨depth, hdepth⟩
    have hstep : StructStep doublePointer (∅, 1) (∅, 1) := by
      refine ⟨by decide +kernel, 0, .ptr (.struct 1), fun hs => absurd hs (Finset.notMem_empty _), ?_, rfl⟩
      exact .pointer rfl (by decide +kernel) ⟨nofun, .ptr (.struct 1), by decide +kernel, rfl⟩
    have harrival : arrival doublePointer (.ptr (.struct 1)) = some 1 := by decide +kernel
    exact not_cycle_of_acc (acc_of_harness harrival nofun hdepth) (.single hstep)
  · rintro ⟨depth, hdepth⟩
    have hstep : DumpStep childArray 1 1 := by
      exact ⟨0, .array 4 (.ptr (.struct 1)), .array 4 (.ptr (.struct 1)), rfl, by decide +kernel, rfl⟩
    exact not_cycle_of_acc (acc_of_harness_result hdepth) (.single hstep)

end Assure
