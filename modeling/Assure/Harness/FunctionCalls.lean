import Assure.Library.Loop
import Mathlib.Algebra.GroupWithZero.Nat
import Mathlib.Algebra.Order.BigOperators.Group.List
import Mathlib.Algebra.Order.Group.Nat
import Mathlib.Data.List.Nodup
import Mathlib.Data.List.Forall2

/-!
# Calls of functions that have no body

KLEE has to find a body for every function that a module calls. `convertFunctionCalls` goes through the functions and
puts a call of a stub in the place of every call that it cannot follow: of a function without a body, if it is not in
`keepList`, and through a pointer. The stub of an allocation calls the `malloc` that the pass has declared before. Stubs
stand at the end of the module, where the same loop comes to them.

`run` has the other passes as a function of the module, behind the declaration of `malloc`. `run_iff` says when the
module that comes out calls only what KLEE can follow, and reaches `malloc` for every allocation of Rust.

The equivalence is for every module and for every function in the place of the other passes; it
includes that the loop ends. Indirect calls are replaced without looking at where they may lead.
-/

namespace Assure

open Assure.Library

/-! ## Modules -/

inductive IRValue
  | param (i : Nat)
  | result (register : Nat)
  | other (text : String)
  deriving DecidableEq

inductive Callee
  | function (name : String)
  | pointer (value : IRValue)
  deriving DecidableEq

/-- `CallInst` and `InvokeInst` -/
inductive CallKind
  | call
  | invoke (normalDest unwindDest : Nat)
  deriving DecidableEq

/-- **A call.** What uses its result names its register; `sret` is the out-parameter that a stub can initialise. -/
structure CallBase where
  kind : CallKind
  register : Nat
  callee : Callee
  args : List IRValue
  returnsVoid : Bool
  sret : Option Nat
  deriving DecidableEq

inductive Instruction
  | call (c : CallBase)
  | ret (value : Option IRValue)
  | other (register : Nat) (opcode : String) (operands : List IRValue)
  deriving DecidableEq

/-- **A function**; a declaration has no body. -/
structure IRFunction where
  name : String
  body : Option (List Instruction)
  deriving DecidableEq

def Instruction.call? : Instruction → Option CallBase
  | .call c => some c
  | _ => none

def IRFunction.calls (F : IRFunction) : List CallBase := (F.body.getD []).filterMap Instruction.call?

/-- **A module**, which declares what it calls. -/
structure IRModule where
  functions : List IRFunction
  globals : List String
  declared : ∀ F ∈ functions, ∀ c ∈ F.calls, ∀ f, c.callee = .function f → f ∈ functions.map IRFunction.name

def IRModule.names (M : IRModule) : List String := M.functions.map IRFunction.name ++ M.globals

/-- A function of the name has a body. -/
def isDefined (functions : List IRFunction) (name : String) : Bool :=
  functions.any fun F => F.name == name && F.body.isSome

/-- A declaration more. -/
def IRModule.declare (M : IRModule) (name : String) : IRModule where
  functions := M.functions ++ [⟨name, none⟩]
  globals := M.globals
  declared := by
    intro F hF c hc f hf
    rw [List.map_append]
    rcases List.mem_append.mp hF with hF | hF
    · exact List.mem_append_left _ (M.declared F hF c hc f hf)
    · obtain rfl := List.mem_singleton.mp hF
      cases hc

/-! ## What LLVM and `rustfilt` do -/

/-- **How a new function gets its name**: a suffix where the name is taken. -/
structure Naming where
  fresh : List String → String → String
  suffix : ∀ taken name, ∃ more, fresh taken name = name ++ more
  notMem : ∀ taken name, fresh taken name ∉ taken
  free : ∀ taken name, name ∉ taken → fresh taken name = name

/-- **`rustfilt`** changes mangled names only. -/
structure Demangler where
  demangle : String → String
  plain : ∀ name, ¬ "_R".toList <+: name.toList → ¬ "_ZN".toList <+: name.toList → demangle name = name

/-! ## The conversion -/

/-- `keep_list` -/
def keepList : List String := ["strcpy", "__strcpy_chk", "malloc", "strlen", "memcmp"]

/-- `isIntrinsic` -/
def isIntrinsic (name : String) : Bool := "llvm.".toList.isPrefixOf name.toList

/-- The functions that are passed over: the driver and the stubs. -/
def isPassedOver (name : String) : Bool := name == "main" || "symbolic_dummy".toList.isPrefixOf name.toList

/-- A call that is replaced, where these functions are there. -/
def isReplaced (functions : List IRFunction) (c : CallBase) : Bool :=
  match c.callee with
  | .function f => !isIntrinsic f && !isDefined functions f && !keepList.contains f
  | .pointer _ => true

/-- The body of the stub of an allocation. -/
def allocBody (mallocFunction : String) : List Instruction :=
  [.call ⟨.call, 0, .function mallocFunction, [.param 0], false, none⟩, .ret (some (.result 0))]

/-- The body of any other stub: it gives a zero, in the out-parameter or as its value. -/
def dummyBody (c : CallBase) : List Instruction :=
  if c.returnsVoid then
    match c.sret with
    | some i => [.other 0 "load" [.other "symbolic_sret"], .other 1 "store" [.result 0, .param i], .ret none]
    | none => [.ret none]
  else [.other 0 "load" [.other "symbolic_ret"], .ret (some (.result 0))]

/-- The functions that the loop is through with, and the ones that it is not. -/
structure ConvertState where
  done : List IRFunction
  todo : List IRFunction
  globals : List String

def ConvertState.names (s : ConvertState) : List String := (s.done ++ s.todo).map IRFunction.name ++ s.globals

section

variable (N : Naming) (R : Demangler) (mallocFunction : String)

def callsRustAlloc (c : CallBase) : Bool :=
  match c.callee with
  | .function f => R.demangle f == "__rust_alloc"
  | .pointer _ => false

/-- `Function::Create` of a stub, with the global of its value. -/
def createStub (c : CallBase) (count : Nat) (taken : List String) : IRFunction × List String :=
  if callsRustAlloc R c then
    (⟨N.fresh taken ("function_rust_alloc" ++ Nat.repr count), some (allocBody mallocFunction)⟩, [])
  else
    let name := N.fresh taken ("symbolic_dummy" ++ Nat.repr count)
    (⟨name, some (dummyBody c)⟩,
      if !c.returnsVoid then [N.fresh (name :: taken) "symbolic_ret"]
      else if c.sret.isSome then [N.fresh (name :: taken) "symbolic_sret"]
      else [])

/-- The instructions of a function with its calls replaced, with the stubs and their globals. -/
def replaceCalls (replaced : CallBase → Bool) :
    List Instruction → Nat → List String → List Instruction × List IRFunction × List String
  | [], _, _ => ([], [], [])
  | .call c :: rest, count, taken =>
    if replaced c then
      let stub := createStub N R mallocFunction c count taken
      let done := replaceCalls replaced rest (count + 1) (stub.1.name :: stub.2 ++ taken)
      (.call { c with callee := .function stub.1.name } :: done.1, stub.1 :: done.2.1, stub.2 ++ done.2.2)
    else
      let done := replaceCalls replaced rest count taken
      (.call c :: done.1, done.2)
  | instruction :: rest, count, taken =>
    let done := replaceCalls replaced rest count taken
    (instruction :: done.1, done.2)

/-- One pass of the loop. -/
def convertFunction (s : ConvertState) : Option ConvertState :=
  match s.todo with
  | [] => none
  | F :: todo =>
    match F.body with
    | none => some ⟨s.done ++ [F], todo, s.globals⟩
    | some body =>
      if isPassedOver F.name then some ⟨s.done ++ [F], todo, s.globals⟩
      else
        let done := replaceCalls N R mallocFunction (isReplaced (s.done ++ s.todo)) body 0 s.names
        some ⟨s.done ++ [⟨F.name, some done.1⟩], todo ++ done.2.1, s.globals ++ done.2.2⟩

/-- **`convert_function_calls`** -/
def convertFunctionCalls (fuel : Nat) (M : IRModule) : Option ConvertState :=
  whileLoop (fun s : ConvertState => !s.todo.isEmpty) (convertFunction N R mallocFunction) fuel
    ⟨[], M.functions, M.globals⟩

end

/-- The module at the conversion, behind the passes before it, and the name of the function that `malloc_function` is. -/
def beforeConversion (N : Naming) (passes : IRModule → IRModule) (M : IRModule) : IRModule × String :=
  let mallocFunction := N.fresh M.names "malloc"
  (passes (M.declare mallocFunction), mallocFunction)

/-- **`run`** -/
def run (N : Naming) (R : Demangler) (passes : IRModule → IRModule) (fuel : Nat) (M : IRModule) :
    Option (List IRFunction) :=
  let before := beforeConversion N passes M
  (convertFunctionCalls N R before.2 fuel before.1).map ConvertState.done

/-! ## What a pass does to a function -/

/-- Two functions with the name of one and bodies that are related instruction by instruction. -/
def OnBodies (related : Instruction → Instruction → Prop) (F F' : IRFunction) : Prop :=
  F'.name = F.name ∧ Option.Rel (List.Forall₂ related) F.body F'.body

section

variable (R : Demangler) (mallocFunction : String)

/-- **A stub for a call.** -/
def IsStubOf (c : CallBase) (S : IRFunction) : Prop :=
  if callsRustAlloc R c then
    (∃ more, S.name = "function_rust_alloc" ++ more) ∧ S.body = some (allocBody mallocFunction)
  else (∃ more, S.name = "symbolic_dummy" ++ more) ∧ S.body = some (dummyBody c)

/-- **An instruction after the pass**: a call that is replaced calls a stub, with all else as it was. -/
inductive Converted (replaced : CallBase → Bool) (stubs : List IRFunction) : Instruction → Instruction → Prop
  | kept (x : Instruction) (h : ∀ c, x.call? = some c → replaced c = false) : Converted replaced stubs x x
  | replaced (c : CallBase) (S : IRFunction) (h : replaced c = true) (hS : S ∈ stubs)
    (hstub : IsStubOf R mallocFunction c S) :
    Converted replaced stubs (.call c) (.call { c with callee := .function S.name })

/-- The calls that are replaced in a function of a module. -/
def replacedIn (functions : List IRFunction) (F : IRFunction) (c : CallBase) : Bool :=
  !isPassedOver F.name && isReplaced functions c

/-- **A function after the conversion.** -/
def FnConverted (functions stubs : List IRFunction) (F F' : IRFunction) : Prop :=
  OnBodies (Converted R mallocFunction (replacedIn functions F) stubs) F F'

variable {R mallocFunction} {N : Naming} {replaced : CallBase → Bool} {stubs : List IRFunction}

/-- A converted instruction stays one when more stubs are added. -/
theorem Converted.mono {stubs' : List IRFunction} (hsub : stubs ⊆ stubs') {x y : Instruction}
    (h : Converted R mallocFunction replaced stubs x y) : Converted R mallocFunction replaced stubs' x y := by
  cases h with
  | kept x h => exact .kept x h
  | replaced c S h hS hstub => exact .replaced c S h (hsub hS) hstub

/-- A relation between bodies may be weakened. -/
theorem OnBodies.imp {related related' : Instruction → Instruction → Prop} {F F' : IRFunction}
    (himp : ∀ x y, related x y → related' x y) (h : OnBodies related F F') : OnBodies related' F F' := by
  obtain ⟨hname, hbody⟩ := h
  refine ⟨hname, ?_⟩
  obtain ⟨name, body⟩ := F
  obtain ⟨name', body'⟩ := F'
  cases hbody with
  | none => exact .none
  | some hall => exact .some (hall.imp himp)

variable (N R mallocFunction) in
/-- A stub that was just made does what the call it stands for asks, under a name that nothing else
has. -/
theorem createStub_spec (c : CallBase) (count : Nat) (taken : List String) :
    IsStubOf R mallocFunction c (createStub N R mallocFunction c count taken).1 ∧
      (createStub N R mallocFunction c count taken).1.name ∉ taken := by
  unfold createStub IsStubOf
  split
  · obtain ⟨more, hmore⟩ := N.suffix taken ("function_rust_alloc" ++ Nat.repr count)
    exact ⟨⟨⟨_, hmore.trans String.append_assoc⟩, rfl⟩, N.notMem _ _⟩
  · obtain ⟨more, hmore⟩ := N.suffix taken ("symbolic_dummy" ++ Nat.repr count)
    exact ⟨⟨⟨_, hmore.trans String.append_assoc⟩, rfl⟩, N.notMem _ _⟩

variable (N R mallocFunction) in
/-- **The calls of a body are replaced** by calls of new stubs, each with a name of its own. -/
theorem replaceCalls_spec (replaced : CallBase → Bool) : ∀ (body : List Instruction) (count : Nat)
    (taken : List String),
    List.Forall₂ (Converted R mallocFunction replaced (replaceCalls N R mallocFunction replaced body count taken).2.1)
        body (replaceCalls N R mallocFunction replaced body count taken).1 ∧
      (∀ S ∈ (replaceCalls N R mallocFunction replaced body count taken).2.1,
        (∃ c, IsStubOf R mallocFunction c S) ∧ S.name ∉ taken) ∧
      ((replaceCalls N R mallocFunction replaced body count taken).2.1.map IRFunction.name).Nodup
  | [], _, _ => ⟨.nil, nofun, List.nodup_nil⟩
  | .ret value :: rest, count, taken => by
    obtain ⟨hbody, hstubs, hnodup⟩ := replaceCalls_spec replaced rest count taken
    exact ⟨.cons (.kept _ nofun) hbody, hstubs, hnodup⟩
  | .other register opcode operands :: rest, count, taken => by
    obtain ⟨hbody, hstubs, hnodup⟩ := replaceCalls_spec replaced rest count taken
    exact ⟨.cons (.kept _ nofun) hbody, hstubs, hnodup⟩
  | .call c :: rest, count, taken => by
    rw [replaceCalls]
    split
    · rename_i hc
      set stub := createStub N R mallocFunction c count taken with hstub
      obtain ⟨hbody, hstubs, hnodup⟩ := replaceCalls_spec replaced rest (count + 1) (stub.1.name :: stub.2 ++ taken)
      obtain ⟨hof, hfresh⟩ := createStub_spec R mallocFunction N c count taken
      refine ⟨.cons (.replaced c stub.1 hc List.mem_cons_self hof) ?_, ?_, ?_⟩
      · exact hbody.imp fun x y h => h.mono (List.subset_cons_self _ _)
      · intro S hS
        rcases List.mem_cons.mp hS with rfl | hS
        · exact ⟨⟨c, hof⟩, hfresh⟩
        · obtain ⟨hS, hname⟩ := hstubs S hS
          exact ⟨hS, fun h => hname (List.mem_append_right _ h)⟩
      · refine List.nodup_cons.mpr ⟨fun h => ?_, hnodup⟩
        obtain ⟨S, hS, hname⟩ := List.mem_map.mp h
        exact (hstubs S hS).2 (hname ▸ List.mem_append_left _ List.mem_cons_self)
    · rename_i hc
      obtain ⟨hbody, hstubs, hnodup⟩ := replaceCalls_spec replaced rest count taken
      refine ⟨.cons (.kept _ fun c' hc' => ?_) hbody, hstubs, hnodup⟩
      obtain rfl := Option.some.inj hc'
      exact Bool.eq_false_iff.mpr hc

/-- What is made of a body depends on its calls only. -/
theorem replaceCalls_congr {replaced replaced' : CallBase → Bool} : ∀ {body : List Instruction} {count : Nat}
    {taken : List String}, (∀ c ∈ body.filterMap Instruction.call?, replaced c = replaced' c) →
      replaceCalls N R mallocFunction replaced body count taken =
        replaceCalls N R mallocFunction replaced' body count taken
  | [], _, _, _ => rfl
  | .ret value :: rest, count, taken, h => by
    have hrest : replaceCalls N R mallocFunction replaced rest count taken =
      replaceCalls N R mallocFunction replaced' rest count taken := replaceCalls_congr h
    rw [replaceCalls, hrest, replaceCalls]
    all_goals exact nofun
  | .other register opcode operands :: rest, count, taken, h => by
    have hrest : replaceCalls N R mallocFunction replaced rest count taken =
      replaceCalls N R mallocFunction replaced' rest count taken := replaceCalls_congr h
    rw [replaceCalls, hrest, replaceCalls]
    all_goals exact nofun
  | .call c :: rest, count, taken, h => by
    have hrest : ∀ count taken, replaceCalls N R mallocFunction replaced rest count taken =
        replaceCalls N R mallocFunction replaced' rest count taken :=
      fun count taken => replaceCalls_congr fun c' hc' => h c' (List.mem_cons_of_mem c hc')
    simp only [replaceCalls, h c List.mem_cons_self, hrest]

/-! ## The loop -/

/-- What a stub for a call weighs at most. -/
def callWeight (R : Demangler) (c : CallBase) : Nat := if callsRustAlloc R c then 2 else 1

/-- The number of passes that a function can still cost. -/
def passWeight (R : Demangler) (F : IRFunction) : Nat := 1 + (F.calls.map (callWeight R)).sum

/-- The name of an allocator is not mangled, so demangling leaves it. -/
theorem not_mangled_of_malloc (hmalloc : "malloc".toList <+: mallocFunction.toList) :
    R.demangle mallocFunction = mallocFunction := by
  apply R.plain
  · intro h
    obtain ⟨more, hmore⟩ := hmalloc
    obtain ⟨rest, hrest⟩ := h
    rw [← hrest] at hmore
    cases hmore
  · intro h
    obtain ⟨more, hmore⟩ := hmalloc
    obtain ⟨rest, hrest⟩ := h
    rw [← hrest] at hmore
    cases hmore

/-- A stub that allocates still has two calls to be looked at, which keeps the weight of a module
from growing. -/
theorem passWeight_alloc (hmalloc : "malloc".toList <+: mallocFunction.toList) (name : String) :
    passWeight R ⟨name, some (allocBody mallocFunction)⟩ = 2 := by
  have hcalls : callsRustAlloc R ⟨.call, 0, .function mallocFunction, [.param 0], false, none⟩ = false := by
    simp only [callsRustAlloc, not_mangled_of_malloc hmalloc, beq_eq_false_iff_ne]
    rintro rfl
    obtain ⟨more, hmore⟩ := hmalloc
    cases hmore
  have : (IRFunction.calls ⟨name, some (allocBody mallocFunction)⟩) =
    [⟨.call, 0, .function mallocFunction, [.param 0], false, none⟩] := rfl
  rw [passWeight, this, List.map_singleton, List.sum_singleton, callWeight, hcalls]
  rfl

/-- A dummy calls nothing. -/
theorem calls_dummy (name : String) (c : CallBase) : IRFunction.calls ⟨name, some (dummyBody c)⟩ = [] := by
  simp only [IRFunction.calls, Option.getD_some, dummyBody]
  split
  · split <;> rfl
  · rfl

/-- A stub weighs no more than the call that it replaces. -/
theorem createStub_weight (hmalloc : "malloc".toList <+: mallocFunction.toList) (c : CallBase) (count : Nat)
    (taken : List String) : passWeight R (createStub N R mallocFunction c count taken).1 ≤ callWeight R c := by
  unfold createStub callWeight
  split
  · exact (passWeight_alloc hmalloc _).le
  · rw [passWeight, calls_dummy]
    exact Nat.le_refl 1

/-- The stubs of a body together weigh no more than its calls, which is the measure by which the
rounds of the pass end. -/
theorem replaceCalls_weight (hmalloc : "malloc".toList <+: mallocFunction.toList) (replaced : CallBase → Bool) :
    ∀ (body : List Instruction) (count : Nat) (taken : List String),
      ((replaceCalls N R mallocFunction replaced body count taken).2.1.map (passWeight R)).sum ≤
        ((body.filterMap Instruction.call?).map (callWeight R)).sum
  | [], _, _ => Nat.le_refl 0
  | .ret value :: rest, count, taken => replaceCalls_weight hmalloc replaced rest count taken
  | .other register opcode operands :: rest, count, taken => replaceCalls_weight hmalloc replaced rest count taken
  | .call c :: rest, count, taken => by
    have hcalls : (Instruction.call c :: rest).filterMap Instruction.call? = c :: rest.filterMap Instruction.call? := rfl
    rw [replaceCalls, hcalls, List.map_cons, List.sum_cons]
    split
    · dsimp only
      rw [List.map_cons, List.sum_cons]
      exact Nat.add_le_add (createStub_weight hmalloc c count taken) (replaceCalls_weight hmalloc replaced rest _ _)
    · exact (replaceCalls_weight hmalloc replaced rest count taken).trans (Nat.le_add_left _ _)

/-- **How far the loop is**: the functions and stubs it has gone through are converted. -/
structure ConvertProgress (R : Demangler) (mallocFunction : String) (M : IRModule) (s : ConvertState)
    (front stubs : List IRFunction) : Prop where
  origins : M.functions ++ stubs = front ++ s.todo
  converted : List.Forall₂ (FnConverted R mallocFunction M.functions stubs) front s.done
  isStub : ∀ S ∈ stubs, (∃ c, IsStubOf R mallocFunction c S) ∧ S.name ∉ M.functions.map IRFunction.name
  nodup : (stubs.map IRFunction.name).Nodup

variable {M : IRModule} {s : ConvertState} {front : List IRFunction}

/-- A function is defined among two lists if it is in one of them. -/
theorem isDefined_append (functions functions' : List IRFunction) (f : String) :
    isDefined (functions ++ functions') f = (isDefined functions f || isDefined functions' f) := List.any_append

/-- A function that does not occur is not defined. -/
theorem isDefined_of_notMem {functions : List IRFunction} {f : String} (h : f ∉ functions.map IRFunction.name) :
    isDefined functions f = false := by
  rw [isDefined, List.any_eq_false]
  intro F hF hand
  rw [Bool.and_eq_true, beq_iff_eq] at hand
  exact h (List.mem_map.mpr ⟨F, hF, hand.1⟩)

/-- Converting a function keeps whether it has a body. -/
theorem OnBodies.isSome {related : Instruction → Instruction → Prop} {F F' : IRFunction}
    (h : OnBodies related F F') : F'.body.isSome = F.body.isSome := by
  obtain ⟨name, body⟩ := F
  obtain ⟨name', body'⟩ := F'
  obtain ⟨-, hbody⟩ := h
  cases hbody with
  | none => rfl
  | some _ => rfl

/-- What is converted has the names that it had, and bodies where it had some. -/
theorem isDefined_converted {related : IRFunction → Instruction → Instruction → Prop} {done : List IRFunction}
    (h : List.Forall₂ (fun F => OnBodies (related F) F) front done) (f : String) :
    isDefined done f = isDefined front f := by
  induction h with
  | nil => rfl
  | cons hF _ ih =>
    simp only [isDefined, List.any_cons] at ih ⊢
    rw [ih, hF.1, hF.isSome]

/-- Converting functions keeps their names and their order. -/
theorem map_name_converted {related : IRFunction → Instruction → Instruction → Prop} {done : List IRFunction}
    (h : List.Forall₂ (fun F => OnBodies (related F) F) front done) :
    done.map IRFunction.name = front.map IRFunction.name := by
  induction h with
  | nil => rfl
  | cons hF _ ih => rw [List.map_cons, List.map_cons, ih, hF.1]

/-- No stub has a name that begins like that of `malloc`. -/
theorem IsStubOf.name_ne {c : CallBase} {S : IRFunction} (h : IsStubOf R mallocFunction c S) {name : String}
    (hname : "malloc".toList <+: name.toList) : S.name ≠ name := by
  obtain ⟨tail, htail⟩ := hname
  rintro rfl
  unfold IsStubOf at h
  split at h
  · obtain ⟨⟨more, hmore⟩, -⟩ := h
    rw [hmore, String.toList_append] at htail
    cases htail
  · obtain ⟨⟨more, hmore⟩, -⟩ := h
    rw [hmore, String.toList_append] at htail
    cases htail

/-- **The functions that are called where the loop is are no stubs.** -/
theorem ConvertProgress.callee_notMem (h : ConvertProgress R mallocFunction M s front stubs)
    (hmalloc : "malloc".toList <+: mallocFunction.toList) {F : IRFunction} (hF : F ∈ M.functions ++ stubs)
    {c : CallBase} (hc : c ∈ F.calls) {f : String} (hf : c.callee = .function f) : f ∉ stubs.map IRFunction.name := by
  intro hmem
  obtain ⟨S, hS, rfl⟩ := List.mem_map.mp hmem
  obtain ⟨⟨c', hS'⟩, hfresh⟩ := h.isStub S hS
  rcases List.mem_append.mp hF with hF | hF
  · exact hfresh (M.declared F hF c hc _ hf)
  · obtain ⟨⟨c'', hF'⟩, -⟩ := h.isStub F hF
    obtain ⟨name, body⟩ := F
    unfold IsStubOf at hF'
    split at hF'
    · obtain ⟨-, hbody⟩ := hF'
      obtain rfl : body = _ := hbody
      obtain rfl := List.mem_singleton.mp hc
      exact hS'.name_ne hmalloc (Callee.function.inj hf).symm
    · obtain ⟨-, hbody⟩ := hF'
      obtain rfl : body = _ := hbody
      rw [calls_dummy] at hc
      cases hc

/-- What is replaced does not depend on how far the loop is. -/
theorem ConvertProgress.isReplaced_eq (h : ConvertProgress R mallocFunction M s front stubs)
    (hmalloc : "malloc".toList <+: mallocFunction.toList) {F : IRFunction} (hF : F ∈ M.functions ++ stubs)
    {c : CallBase} (hc : c ∈ F.calls) : isReplaced (s.done ++ s.todo) c = isReplaced M.functions c := by
  unfold isReplaced
  cases hf : c.callee with
  | pointer value => rfl
  | function f =>
    have hstub : isDefined stubs f = false := isDefined_of_notMem (h.callee_notMem hmalloc hF hc hf)
    have hdefined : isDefined (s.done ++ s.todo) f = isDefined M.functions f := by
      rw [isDefined_append, isDefined_converted h.converted, ← isDefined_append, ← h.origins, isDefined_append, hstub,
        Bool.or_false]
    dsimp only
    rw [hdefined]

/-- A converted function stays one when more stubs are added. -/
theorem FnConverted.mono {functions stubs' : List IRFunction} (hsub : stubs ⊆ stubs') {F F' : IRFunction}
    (h : FnConverted R mallocFunction functions stubs F F') : FnConverted R mallocFunction functions stubs' F F' :=
  OnBodies.imp (fun _ _ h => h.mono hsub) h

/-- A function that is left as it is. -/
theorem FnConverted.refl {functions : List IRFunction} {F : IRFunction}
    (h : F.body = none ∨ isPassedOver F.name = true) : FnConverted R mallocFunction functions stubs F F := by
  obtain ⟨name, body⟩ := F
  refine ⟨rfl, ?_⟩
  cases body with
  | none => exact .none
  | some body =>
    have hover : isPassedOver name = true := h.resolve_left nofun
    refine .some (List.forall₂_same.mpr fun x _ => .kept x fun c _ => ?_)
    rw [replacedIn, hover]
    rfl

/-- **A pass of the loop.** -/
theorem ConvertProgress.pass (h : ConvertProgress R mallocFunction M s front stubs)
    (hmalloc : "malloc".toList <+: mallocFunction.toList) {F : IRFunction} {todo : List IRFunction}
    (htodo : s.todo = F :: todo) : ∃ s' new, convertFunction N R mallocFunction s = some s' ∧
      s'.todo = todo ++ new ∧ (new.map (passWeight R)).sum < passWeight R F ∧
      ConvertProgress R mallocFunction M s' (front ++ [F]) (stubs ++ new) := by
  have hF : F ∈ M.functions ++ stubs := by
    rw [h.origins, htodo]
    exact List.mem_append_right _ List.mem_cons_self
  have hleft : F.body = none ∨ isPassedOver F.name = true →
      ConvertProgress R mallocFunction M ⟨s.done ++ [F], todo, s.globals⟩ (front ++ [F]) (stubs ++ []) := by
    intro hover
    rw [List.append_nil]
    refine ⟨?_, ?_, h.isStub, h.nodup⟩
    · rw [h.origins, htodo, List.append_assoc]
      rfl
    · exact List.rel_append h.converted (.cons (.refl hover) .nil)
  have hpos : (([] : List IRFunction).map (passWeight R)).sum < passWeight R F :=
      Nat.lt_of_lt_of_le Nat.one_pos (Nat.le_add_right 1 _)
  unfold convertFunction
  rw [htodo]
  dsimp only
  cases hbody : F.body with
  | none => exact ⟨_, [], rfl, (List.append_nil todo).symm, hpos, hleft (.inl hbody)⟩
  | some body =>
    dsimp only
    split
    · rename_i hover
      exact ⟨_, [], rfl, (List.append_nil todo).symm, hpos, hleft (.inr hover)⟩
    · rename_i hover
      have hcalls : F.calls = body.filterMap Instruction.call? := by rw [IRFunction.calls, hbody, Option.getD_some]
      have hsame : ∀ c ∈ body.filterMap Instruction.call?,
          isReplaced (s.done ++ F :: todo) c = replacedIn M.functions F c := by
        intro c hc
        rw [replacedIn, Bool.eq_false_iff.mpr hover, ← htodo, h.isReplaced_eq hmalloc hF (hcalls ▸ hc)]
        rfl
      rw [replaceCalls_congr hsame]
      obtain ⟨hconverted, hstubs, hnodup⟩ := replaceCalls_spec R mallocFunction N
        (replacedIn M.functions F) body 0 s.names
      have hweight := replaceCalls_weight (R := R) (N := N) hmalloc (replacedIn M.functions F) body 0 s.names
      set new := (replaceCalls N R mallocFunction (replacedIn M.functions F) body 0 s.names).2.1
      have hnames : (s.done ++ s.todo).map IRFunction.name = (M.functions ++ stubs).map IRFunction.name := by
        rw [h.origins, List.map_append, List.map_append, map_name_converted h.converted]
      have hfresh : ∀ S ∈ new, S.name ∉ (M.functions ++ stubs).map IRFunction.name := by
        intro S hS hmem
        exact (hstubs S hS).2 (List.mem_append_left _ (hnames ▸ hmem))
      refine ⟨_, new, rfl, rfl, ?_, ⟨?_, ?_, ?_, ?_⟩⟩
      · rw [passWeight, hcalls]
        omega
      · rw [← List.append_assoc, h.origins, htodo]
        simp only [List.append_assoc, List.cons_append, List.nil_append]
      · refine List.rel_append (h.converted.imp fun F F' hF => hF.mono (List.subset_append_left _ _))
          (.cons ⟨rfl, ?_⟩ .nil)
        rw [hbody]
        exact .some (hconverted.imp fun x y hxy => hxy.mono (List.subset_append_right _ _))
      · intro S hS
        rcases List.mem_append.mp hS with hS | hS
        · exact h.isStub S hS
        · refine ⟨(hstubs S hS).1, fun hmem => hfresh S hS ?_⟩
          rw [List.map_append]
          exact List.mem_append_left _ hmem
      · rw [List.map_append]
        refine List.nodup_append.mpr ⟨h.nodup, hnodup, ?_⟩
        rintro name hname _ hname' rfl
        obtain ⟨S, hS, rfl⟩ := List.mem_map.mp hname'
        refine hfresh S hS ?_
        rw [List.map_append]
        exact List.mem_append_right _ hname

/-- **The loop ends**, with all functions and stubs converted. -/
theorem convertFunctionCalls_spec (N : Naming) (R : Demangler) (M : IRModule)
    (hmalloc : "malloc".toList <+: mallocFunction.toList) :
    ∃ fuel s stubs, convertFunctionCalls N R mallocFunction fuel M = some s ∧
      List.Forall₂ (FnConverted R mallocFunction M.functions stubs) (M.functions ++ stubs) s.done ∧
      (∀ S ∈ stubs, (∃ c, IsStubOf R mallocFunction c S) ∧ S.name ∉ M.functions.map IRFunction.name) ∧
      (stubs.map IRFunction.name).Nodup := by
  obtain ⟨s, hs, ⟨front, stubs, hprogress⟩, hend⟩ := whileLoop_spec
    (fun s : ConvertState => !s.todo.isEmpty) (convertFunction N R mallocFunction)
    (fun s => ∃ front stubs, ConvertProgress R mallocFunction M s front stubs)
      (fun s => (s.todo.map (passWeight R)).sum)
    (fun s ⟨front, stubs, hprogress⟩ hmore => by
      obtain ⟨F, todo, htodo⟩ : ∃ F todo, s.todo = F :: todo := by
        apply List.exists_cons_of_ne_nil
        intro hnil
        rw [hnil] at hmore
        cases hmore
      obtain ⟨s', new, hpass, htodo', hweight, hprogress'⟩ := hprogress.pass (N := N) hmalloc htodo
      refine ⟨s', hpass, ⟨_, _, hprogress'⟩, ?_⟩
      rw [htodo', htodo, List.map_append, List.sum_append, List.map_cons, List.sum_cons]
      omega)
    _ ⟨[], M.functions, M.globals⟩ ⟨[], [], List.append_nil _, .nil, nofun, List.nodup_nil⟩ (Nat.le_refl _)
  have hdone : s.todo = [] := List.isEmpty_iff.mp (by simpa using hend)
  refine ⟨_, s, stubs, hs, ?_, hprogress.isStub, hprogress.nodup⟩
  rw [hprogress.origins, hdone, List.append_nil]
  exact hprogress.converted

/-! ## What holds of the module then -/

/-- An entry of the first list has its partner. -/
theorem exists_of_mem_left {α β : Type*} {related : α → β → Prop} {l : List α} {l' : List β}
    (h : List.Forall₂ related l l') {x : α} (hx : x ∈ l) : ∃ y ∈ l', related x y := by
  induction h with
  | nil => cases hx
  | cons hxy _ ih =>
    rcases List.mem_cons.mp hx with rfl | hx
    · exact ⟨_, List.mem_cons_self, hxy⟩
    · obtain ⟨y, hy, hxy⟩ := ih hx
      exact ⟨y, List.mem_cons_of_mem _ hy, hxy⟩

/-- An entry of the second list has its partner. -/
theorem exists_of_mem_right {α β : Type*} {related : α → β → Prop} {l : List α} {l' : List β}
    (h : List.Forall₂ related l l') {y : β} (hy : y ∈ l') : ∃ x ∈ l, related x y :=
  exists_of_mem_left h.flip hy

/-- A relation between lists may be weakened, given the membership on the left. -/
theorem forall₂_imp_mem {α β : Type*} {related related' : α → β → Prop} {l : List α} {l' : List β}
    (h : List.Forall₂ related l l') (himp : ∀ x ∈ l, ∀ y, related x y → related' x y) : List.Forall₂ related' l l' := by
  induction h with
  | nil => exact .nil
  | cons hxy _ ih =>
    exact .cons (himp _ List.mem_cons_self _ hxy) (ih fun x hx => himp x (List.mem_cons_of_mem _ hx))

/-- What is related to two lists one behind the other falls into two parts. -/
theorem forall₂_append_left {α β : Type*} {related : α → β → Prop} : ∀ {l m : List α} {l' : List β},
    List.Forall₂ related (l ++ m) l' → ∃ a b, l' = a ++ b ∧ List.Forall₂ related l a ∧ List.Forall₂ related m b
  | [], _, l', h => ⟨[], l', rfl, .nil, h⟩
  | x :: l, m, _, .cons hxy h => by
    obtain ⟨a, b, rfl, ha, hb⟩ := forall₂_append_left h
    exact ⟨_ :: a, b, rfl, .cons hxy ha, hb⟩

/-- The stub of an allocation comes from nothing else. -/
theorem eq_allocBody_of_converted {body : List Instruction} {name : String} (hname : "malloc".toList <+: name.toList)
    (h : List.Forall₂ (Converted R mallocFunction replaced stubs) body (allocBody name)) : body = allocBody name := by
  obtain ⟨x, rest, hx, hrest, rfl⟩ := List.forall₂_cons_right_iff.mp h
  obtain ⟨x', rest', hx', hrest', rfl⟩ := List.forall₂_cons_right_iff.mp hrest
  obtain rfl := List.forall₂_nil_right_iff.mp hrest'
  cases hx' with
  | kept =>
    generalize hy : Instruction.call ⟨.call, 0, .function name, [.param 0], false, none⟩ = y at hx
    cases hx with
    | kept => rw [← hy]; rfl
    | replaced c S _ _ hstub =>
      have hcallee : Callee.function name = .function S.name := congrArg CallBase.callee (Instruction.call.inj hy)
      exact absurd (Callee.function.inj hcallee).symm (hstub.name_ne hname)

/-- The stub that calls `malloc` stays as it is. -/
theorem allocBody_of_converted {body : List Instruction}
    (hkept : ∀ c, c.callee = .function "malloc" → replaced c = false)
    (h : List.Forall₂ (Converted R mallocFunction replaced stubs) (allocBody "malloc") body) :
    body = allocBody "malloc" := by
  obtain ⟨y, rest, hy, hrest, rfl⟩ := List.forall₂_cons_left_iff.mp h
  obtain ⟨y', rest', hy', hrest', rfl⟩ := List.forall₂_cons_left_iff.mp hrest
  obtain rfl := List.forall₂_nil_left_iff.mp hrest'
  cases hy' with
  | kept =>
    cases hy with
    | kept => rfl
    | replaced c S hc _ _ =>
      rw [hkept _ rfl] at hc
      cases hc

/-- The body of the converted function, instruction by instruction. -/
theorem OnBodies.body {related : Instruction → Instruction → Prop} {F F' : IRFunction} (h : OnBodies related F F')
    {body : List Instruction} (hbody : F.body = some body) :
    ∃ body', F'.body = some body' ∧ List.Forall₂ related body body' := by
  obtain ⟨name, body⟩ := F
  obtain ⟨name', body'⟩ := F'
  obtain rfl := hbody
  cases h.2 with
  | some hall => exact ⟨_, rfl, hall⟩

/-- The body that a converted function came from. -/
theorem OnBodies.body_left {related : Instruction → Instruction → Prop} {F F' : IRFunction} (h : OnBodies related F F')
    {body' : List Instruction} (hbody : F'.body = some body') :
    ∃ body, F.body = some body ∧ List.Forall₂ related body body' := by
  obtain ⟨name, body⟩ := F
  obtain ⟨name', body''⟩ := F'
  obtain rfl := hbody
  cases h.2 with
  | some hall => exact ⟨_, rfl, hall⟩

/-- The calls of a function are the call instructions of its body. -/
theorem IRFunction.mem_calls {F : IRFunction} {c : CallBase} :
    c ∈ F.calls ↔ ∃ body, F.body = some body ∧ .call c ∈ body := by
  unfold IRFunction.calls
  cases F.body with
  | none => exact ⟨nofun, fun ⟨_, h, _⟩ => nomatch h⟩
  | some body =>
    rw [Option.getD_some, List.mem_filterMap]
    constructor
    · rintro ⟨x, hx, hc⟩
      cases x with
      | call c' =>
        obtain rfl := Option.some.inj hc
        exact ⟨body, rfl, hx⟩
      | _ => cases hc
    · rintro ⟨body', hbody, hc⟩
      obtain rfl := Option.some.inj hbody
      exact ⟨_, hc, rfl⟩

/-- **A replaced call keeps all but its callee**: its arguments, and the register that others use. -/
def KeepsCall (x y : Instruction) : Prop := y = x ∨ ∃ c g, x = .call c ∧ y = .call { c with callee := .function g }

/-- **An allocation reaches `malloc`**, through a function that hands on the size. -/
def ReachesMalloc (R : Demangler) (functions : List IRFunction) (x y : Instruction) : Prop :=
  ∀ c f, x = .call c → c.callee = .function f → R.demangle f = "__rust_alloc" →
    ∃ G ∈ functions, y = .call { c with callee := .function G.name } ∧ G.body = some (allocBody "malloc")

/-- **A function that KLEE can call.** -/
def MayCall (functions : List IRFunction) (f : String) : Prop :=
  isDefined functions f = true ∨ isIntrinsic f = true ∨ "klee_".toList <+: f.toList ∨ f ∈ keepList

/-- **Where the conversion does what it is for**: where Rust's allocator is called, it has no body, the module came
without a `malloc` and the caller is not passed over; and a function that is passed over calls nothing that is missing. -/
def Convertible (R : Demangler) (M before : IRModule) : Prop :=
  ∀ F ∈ before.functions, F.name ≠ "main" → ∀ c ∈ F.calls, ∀ f, c.callee = .function f →
    (R.demangle f = "__rust_alloc" →
      (isPassedOver F.name = false ∧ isDefined before.functions f = false ∧ "malloc" ∉ M.names) ∨
        ∃ G ∈ before.functions, G.name = f ∧ G.body = some (allocBody "malloc")) ∧
    (isPassedOver F.name = true → MayCall before.functions f)

section Final

variable {final : List IRFunction}
  (hfinal : List.Forall₂ (FnConverted R mallocFunction M.functions stubs) (M.functions ++ stubs) final)
  (hstubs : ∀ S ∈ stubs, (∃ c, IsStubOf R mallocFunction c S) ∧ S.name ∉ M.functions.map IRFunction.name)

include hfinal hstubs

/-- What has a body in the end had one, or is a stub. -/
theorem isDefined_final {f : String} (hf : f ∈ M.functions.map IRFunction.name) :
    isDefined final f = isDefined M.functions f := by
  have hstub : isDefined stubs f = false := by
    refine isDefined_of_notMem fun hmem => ?_
    obtain ⟨S, hS, rfl⟩ := List.mem_map.mp hmem
    exact (hstubs S hS).2 hf
  rw [isDefined_converted hfinal, isDefined_append, hstub, Bool.or_false]

omit hstubs in
/-- A stub with a body is defined in the final module. -/
theorem isDefined_stub {S : IRFunction} (hS : S ∈ stubs) (hbody : S.body.isSome) : isDefined final S.name = true := by
  rw [isDefined_converted hfinal, isDefined, List.any_eq_true]
  exact ⟨S, List.mem_append_right _ hS, by rw [hbody, beq_self_eq_true]; rfl⟩

/-- For a function of the original module, the final one says the same of what it may call. -/
theorem mayCall_final {f : String} (hf : f ∈ M.functions.map IRFunction.name) :
    MayCall final f ↔ MayCall M.functions f := by
  unfold MayCall
  rw [isDefined_final hfinal hstubs hf]

/-- A function that hands on to `malloc` in the end did so before. -/
theorem alloc_before {f : String} (hf : f ∈ M.functions.map IRFunction.name) {G : IRFunction} (hG : G ∈ final)
    (hname : G.name = f) (hbody : G.body = some (allocBody "malloc")) :
    ∃ G ∈ M.functions, G.name = f ∧ G.body = some (allocBody "malloc") := by
  obtain ⟨G₀, hG₀, hconverted⟩ := exists_of_mem_right hfinal hG
  have hname₀ : G₀.name = f := hconverted.1.symm.trans hname
  obtain ⟨body, hbody₀, hall⟩ := hconverted.body_left hbody
  obtain rfl := eq_allocBody_of_converted (List.prefix_refl _) hall
  rcases List.mem_append.mp hG₀ with hG₀ | hG₀
  · exact ⟨G₀, hG₀, hname₀, hbody₀⟩
  · exact absurd (hname₀ ▸ hf) (hstubs G₀ hG₀).2

omit hstubs in
/-- A function that hands on to `malloc` still does so in the end. -/
theorem alloc_final {G : IRFunction} (hG : G ∈ M.functions ++ stubs) (hbody : G.body = some (allocBody "malloc")) :
    ∃ G' ∈ final, G'.name = G.name ∧ G'.body = some (allocBody "malloc") := by
  obtain ⟨G', hG', hconverted⟩ := exists_of_mem_left hfinal hG
  obtain ⟨body, hbody', hall⟩ := hconverted.body hbody
  refine ⟨G', hG', hconverted.1, ?_⟩
  rw [hbody', allocBody_of_converted (fun c hc => ?_) hall]
  rw [replacedIn, isReplaced, hc]
  simp [keepList]

/-- **The stub of an allocation hands on to `malloc`** if and only if that is the name of the pass's own. -/
theorem stub_alloc_iff (hnodup : (stubs.map IRFunction.name).Nodup)
    (hmalloc : "malloc".toList <+: mallocFunction.toList)
    {c : CallBase} {S : IRFunction} (hS : S ∈ stubs) (hstub : IsStubOf R mallocFunction c S)
    (halloc : callsRustAlloc R c = true) :
    (∃ G ∈ final, G.name = S.name ∧ G.body = some (allocBody "malloc")) ↔ mallocFunction = "malloc" := by
  rw [IsStubOf, if_pos halloc] at hstub
  constructor
  · rintro ⟨G, hG, hname, hbody⟩
    obtain ⟨S', hS', hconverted⟩ := exists_of_mem_right hfinal hG
    have hname' : S'.name = S.name := hconverted.1.symm.trans hname
    have hmem : S' ∈ stubs := by
      rcases List.mem_append.mp hS' with hS' | hS'
      · exact absurd (List.mem_map.mpr ⟨S', hS', hname'⟩) (hstubs S hS).2
      · exact hS'
    obtain rfl := List.inj_on_of_nodup_map hnodup hmem hS hname'
    obtain ⟨body, hbody', hall⟩ := hconverted.body_left hbody
    obtain rfl := eq_allocBody_of_converted (List.prefix_refl _) hall
    have hsame : allocBody mallocFunction = allocBody "malloc" := Option.some.inj (hstub.2.symm.trans hbody')
    exact Callee.function.inj (congrArg CallBase.callee (Instruction.call.inj (List.cons.inj hsame).1))
  · rintro rfl
    exact alloc_final hfinal (List.mem_append_right _ hS) hstub.2

end Final

/-- Rust's allocator is no intrinsic and not kept. -/
theorem isReplaced_of_rustAlloc {functions : List IRFunction} {c : CallBase} {f : String} (hf : c.callee = .function f)
    (halloc : R.demangle f = "__rust_alloc") : isReplaced functions c = !isDefined functions f := by
  have hplain : ∀ name, ¬ "_R".toList <+: name.toList → ¬ "_ZN".toList <+: name.toList → name ≠ "__rust_alloc" →
      f ≠ name := by
    rintro _ hR hZ hne rfl
    exact hne ((R.plain _ hR hZ).symm.trans halloc)
  have hintrinsic : isIntrinsic f = false := by
    rw [isIntrinsic, Bool.eq_false_iff]
    intro h
    obtain ⟨more, hmore⟩ := List.isPrefixOf_iff_prefix.mp h
    refine hplain f ?_ ?_ ?_ rfl
    · rintro ⟨rest, hrest⟩
      rw [← hrest] at hmore
      cases hmore
    · rintro ⟨rest, hrest⟩
      rw [← hrest] at hmore
      cases hmore
    · rintro rfl
      cases hmore
  have hkeep : keepList.contains f = false := by
    rw [Bool.eq_false_iff]
    intro h
    have hmem : f ∈ keepList := List.contains_iff_mem.mp h
    simp only [keepList, List.mem_cons, List.not_mem_nil, or_false] at hmem
    rcases hmem with rfl | rfl | rfl | rfl | rfl <;> exact hplain _ (by decide) (by decide) (by decide) rfl
  rw [isReplaced, hf]
  dsimp only
  rw [hintrinsic, hkeep]
  simp

/-- A function that calls Rust's allocator reaches `malloc`, and so does none that is not converted. -/
theorem reaches_of_convertible {final : List IRFunction} {before : IRModule} {F F' : IRFunction}
    (hfinal : List.Forall₂ (FnConverted R mallocFunction before.functions stubs) (before.functions ++ stubs) final)
    (hnodup : (stubs.map IRFunction.name).Nodup)
    (hstubs : ∀ S ∈ stubs, (∃ c, IsStubOf R mallocFunction c S) ∧ S.name ∉ before.functions.map IRFunction.name)
    (hmalloc : "malloc".toList <+: mallocFunction.toList) (hfree : "malloc" ∉ M.names → mallocFunction = "malloc")
    (hcondition : Convertible R M before) (hF : F ∈ before.functions) (hmain : F.name ≠ "main")
    (h : FnConverted R mallocFunction before.functions stubs F F') : OnBodies (ReachesMalloc R final) F F' := by
  refine ⟨h.1, ?_⟩
  cases hbody : F.body with
  | none =>
    have hnone : F'.body = none := Option.isNone_iff_eq_none.mp (by
      rw [← Option.not_isSome, h.isSome, hbody]
      rfl)
    rw [hnone]
    exact .none
  | some body =>
    obtain ⟨body', hbody', hall⟩ := h.body hbody
    rw [hbody']
    refine .some (forall₂_imp_mem hall fun x hx y hxy c f hcall hf halloc => ?_)
    subst hcall
    have hc : c ∈ F.calls := IRFunction.mem_calls.mpr ⟨body, hbody, hx⟩
    have hreplaced : replacedIn before.functions F c = (!isPassedOver F.name && !isDefined before.functions f) := by
      rw [replacedIn, isReplaced_of_rustAlloc hf halloc]
    have halloc' : callsRustAlloc R c = true := by
      rw [callsRustAlloc, hf]
      exact beq_iff_eq.mpr halloc
    rcases (hcondition F hF hmain c hc f hf).1 halloc with ⟨hover, hdefined, htaken⟩ | ⟨G, hG, rfl, hbodyG⟩
    · rw [hover, hdefined] at hreplaced
      cases hxy with
      | kept _ hkept =>
        rw [hkept c rfl] at hreplaced
        cases hreplaced
      | replaced _ S _ hS hstub =>
        obtain ⟨G, hG, hname, hbodyG⟩ := (stub_alloc_iff hfinal hstubs hnodup hmalloc hS hstub halloc').mpr
            (hfree htaken)
        exact ⟨G, hG, by rw [hname], hbodyG⟩
    · have hdefined : isDefined before.functions G.name = true := by
        rw [isDefined, List.any_eq_true]
        exact ⟨G, hG, by rw [hbodyG, beq_self_eq_true]; rfl⟩
      rw [hdefined, Bool.not_true, Bool.and_false] at hreplaced
      cases hxy with
      | kept _ _ =>
        obtain ⟨G', hG', hname, hbodyG'⟩ := alloc_final hfinal (List.mem_append_left _ hG) hbodyG
        refine ⟨G', hG', ?_, hbodyG'⟩
        rw [hname, ← hf]
      | replaced _ S hc' _ _ =>
        rw [hreplaced] at hc'
        cases hc'

/-- What a converted function calls directly can be called. -/
theorem mayCall_of_convertible {final : List IRFunction} {before : IRModule} {F F' : IRFunction}
    (hfinal : List.Forall₂ (FnConverted R mallocFunction before.functions stubs) (before.functions ++ stubs) final)
    (hstubs : ∀ S ∈ stubs, (∃ c, IsStubOf R mallocFunction c S) ∧ S.name ∉ before.functions.map IRFunction.name)
    (hcondition : Convertible R M before) (hF : F ∈ before.functions) (hmain : F.name ≠ "main")
    (h : FnConverted R mallocFunction before.functions stubs F F') {c : CallBase} (hc : c ∈ F'.calls) {f : String}
    (hf : c.callee = .function f) : MayCall final f := by
  obtain ⟨body', hbody', hmem⟩ := IRFunction.mem_calls.mp hc
  obtain ⟨body, hbody, hall⟩ := h.body_left hbody'
  obtain ⟨x, hx, hxy⟩ := exists_of_mem_right hall hmem
  generalize hy : Instruction.call c = y at hxy
  cases hxy with
  | kept _ hkept =>
    subst hy
    have hcF : c ∈ F.calls := IRFunction.mem_calls.mpr ⟨body, hbody, hx⟩
    have hnames := before.declared F hF c hcF f hf
    rw [mayCall_final hfinal hstubs hnames]
    by_cases hover : isPassedOver F.name = true
    · exact (hcondition F hF hmain c hcF f hf).2 hover
    · have hnot := hkept c rfl
      rw [replacedIn, Bool.eq_false_iff.mpr hover, Bool.not_false, Bool.true_and, isReplaced, hf] at hnot
      simp only [Bool.and_eq_false_iff, Bool.not_eq_false', List.contains_iff_mem] at hnot
      rcases hnot with (hintrinsic | hdefined) | hkeep
      · exact .inr (.inl hintrinsic)
      · exact .inl hdefined
      · exact .inr (.inr (.inr hkeep))
  | replaced c' S _ hS hstub =>
    obtain rfl := Instruction.call.inj hy
    obtain rfl := Callee.function.inj hf
    refine .inl (isDefined_stub hfinal hS ?_)
    unfold IsStubOf at hstub
    split at hstub
    · rw [hstub.2]
      rfl
    · rw [hstub.2]
      rfl

/-- What holds of a function after the conversion needs the condition. -/
theorem convertible_of {final : List IRFunction} {before : IRModule} {F F' : IRFunction}
    (hfinal : List.Forall₂ (FnConverted R mallocFunction before.functions stubs) (before.functions ++ stubs) final)
    (hnodup : (stubs.map IRFunction.name).Nodup)
    (hstubs : ∀ S ∈ stubs, (∃ c, IsStubOf R mallocFunction c S) ∧ S.name ∉ before.functions.map IRFunction.name)
    (hmalloc : "malloc".toList <+: mallocFunction.toList) (hfree : mallocFunction = "malloc" → "malloc" ∉ M.names)
    (hF : F ∈ before.functions) (h : FnConverted R mallocFunction before.functions stubs F F')
    (hreaches : OnBodies (ReachesMalloc R final) F F')
    (hmay : ∀ c ∈ F'.calls, ∀ f, c.callee = .function f → MayCall final f) {c : CallBase} (hc : c ∈ F.calls)
      {f : String}
    (hf : c.callee = .function f) :
    (R.demangle f = "__rust_alloc" →
      (isPassedOver F.name = false ∧ isDefined before.functions f = false ∧ "malloc" ∉ M.names) ∨
        ∃ G ∈ before.functions, G.name = f ∧ G.body = some (allocBody "malloc")) ∧
    (isPassedOver F.name = true → MayCall before.functions f) := by
  have hnames := before.declared F hF c hc f hf
  obtain ⟨body, hbody, hmem⟩ := IRFunction.mem_calls.mp hc
  obtain ⟨body', hbody', hall⟩ := h.body hbody
  obtain ⟨body'', hbody'', hreach⟩ := hreaches.body hbody
  obtain rfl : body' = body'' := Option.some.inj (hbody'.symm.trans hbody'')
  have hboth := List.Forall₂.mp (S := fun x y =>
    Converted R mallocFunction (replacedIn before.functions F) stubs x y ∧ ReachesMalloc R final x y)
    (fun x y h h' => ⟨h, h'⟩) hall hreach
  obtain ⟨y, hy, hxy, hto⟩ := exists_of_mem_left hboth hmem
  constructor
  · intro halloc
    have halloc' : callsRustAlloc R c = true := by
      rw [callsRustAlloc, hf]
      exact beq_iff_eq.mpr halloc
    obtain ⟨G, hG, hcall, hbodyG⟩ := hto c f rfl hf halloc
    cases hxy with
    | kept _ _ =>
      have hname : Callee.function f = .function G.name :=
          hf.symm.trans (congrArg CallBase.callee (Instruction.call.inj hcall))
      exact .inr (alloc_before hfinal hstubs hnames hG (Callee.function.inj hname).symm hbodyG)
    | replaced _ S hreplaced hS hstub =>
      have hname : Callee.function S.name = .function G.name := congrArg CallBase.callee (Instruction.call.inj hcall)
      rw [replacedIn, isReplaced_of_rustAlloc hf halloc, Bool.and_eq_true, Bool.not_eq_true',
        Bool.not_eq_true'] at hreplaced
      refine .inl ⟨hreplaced.1, hreplaced.2, hfree ?_⟩
      exact (stub_alloc_iff hfinal hstubs hnodup hmalloc hS hstub halloc').mp
        ⟨G, hG, (Callee.function.inj hname).symm, hbodyG⟩
  · intro hover
    rw [← mayCall_final hfinal hstubs hnames]
    cases hxy with
    | kept _ _ => exact hmay c (IRFunction.mem_calls.mpr ⟨body', hbody', hy⟩) f hf
    | replaced _ S hreplaced _ _ =>
      rw [replacedIn, hover] at hreplaced
      cases hreplaced

end

/-- **The pass ends, and keeps all of a replaced call but its callee.** Allocations reach `malloc`, and what is called has
a body, is an intrinsic or is known to KLEE, if and only if the module can be converted. -/
theorem run_iff (N : Naming) (R : Demangler) (passes : IRModule → IRModule) (M : IRModule) :
    ∃ fuel converted stubs, run N R passes fuel M = some (converted ++ stubs) ∧
      List.Forall₂ (OnBodies KeepsCall) (beforeConversion N passes M).1.functions converted ∧
      ((List.Forall₂ (fun F F' => F.name ≠ "main" → OnBodies (ReachesMalloc R (converted ++ stubs)) F F')
            (beforeConversion N passes M).1.functions converted ∧
          ∀ F' ∈ converted, F'.name ≠ "main" → ∀ c ∈ F'.calls, ∀ f, c.callee = .function f →
            MayCall (converted ++ stubs) f) ↔
        Convertible R M (beforeConversion N passes M).1) := by
  obtain ⟨more, hmore⟩ := N.suffix M.names "malloc"
  have hmalloc : "malloc".toList <+: (N.fresh M.names "malloc").toList := by
    rw [hmore, String.toList_append]
    exact List.prefix_append _ _
  have hfree : N.fresh M.names "malloc" = "malloc" ↔ "malloc" ∉ M.names :=
    ⟨fun h hmem => N.notMem M.names "malloc" (by rw [h]; exact hmem), N.free M.names "malloc"⟩
  obtain ⟨fuel, s, stubs, hs, hdone, hstubs, hnodup⟩ :=
    convertFunctionCalls_spec N R (beforeConversion N passes M).1 hmalloc
  obtain ⟨converted, stubs', hsplit, hconverted, -⟩ := forall₂_append_left hdone
  refine ⟨fuel, converted, stubs', ?_, ?_, ?_⟩
  · rw [run, ← hsplit]
    exact congrArg (Option.map ConvertState.done) hs
  · refine hconverted.imp fun F F' h => OnBodies.imp (fun x y hxy => ?_) h
    cases hxy with
    | kept _ _ => exact .inl rfl
    | replaced c S _ _ _ => exact .inr ⟨c, S.name, rfl, rfl⟩
  · rw [← hsplit]
    constructor
    · rintro ⟨hreaches, hmay⟩ F hF hmain c hc f hf
      have hboth := List.Forall₂.mp (S := fun F F' => FnConverted R (N.fresh M.names "malloc")
        (beforeConversion N passes M).1.functions stubs F F' ∧
          (F.name ≠ "main" → OnBodies (ReachesMalloc R s.done) F F'))
        (fun F F' h h' => ⟨h, h'⟩) hconverted hreaches
      obtain ⟨F', hF', h, hreach⟩ := exists_of_mem_left hboth hF
      exact convertible_of hdone hnodup hstubs hmalloc hfree.mp hF h (hreach hmain) (hmay F' hF' (h.1 ▸ hmain)) hc hf
    · intro hcondition
      refine ⟨forall₂_imp_mem hconverted fun F hF F' h hmain =>
        reaches_of_convertible hdone hnodup hstubs hmalloc hfree.mpr hcondition hF hmain h, ?_⟩
      intro F' hF' hmain c hc f hf
      obtain ⟨F, hF, h⟩ := exists_of_mem_right hconverted hF'
      exact mayCall_of_convertible hdone hstubs hcondition hF (fun hname => hmain (h.1.trans hname)) h hc hf

/-! ## A module with a `malloc` of its own -/

/-- Suffixes as LLVM has them for the first clash of a name. -/
def dotted : Naming where
  fresh taken name :=
    if name ∉ taken then name
    else if name ++ ".1" ∉ taken then name ++ ".1"
    else name ++ String.ofList (List.replicate ((taken.map String.length).sum + 1) '.')
  suffix taken name := by
    split
    · exact ⟨"", String.append_empty.symm⟩
    · split
      · exact ⟨_, rfl⟩
      · exact ⟨_, rfl⟩
  notMem taken name := by
    split
    · assumption
    · split
      · assumption
      · intro hmem
        have hle := List.single_le_sum (fun _ _ => Nat.zero_le _) _ (List.mem_map_of_mem (f := String.length) hmem)
        rw [String.length_append, String.length_ofList, List.length_replicate] at hle
        omega
  free taken name h := if_pos h

/-- Names that are not mangled. -/
def unmangled : Demangler := ⟨id, fun _ _ _ => rfl⟩

/-- A function that allocates eight bytes, in a module that declares `malloc`. -/
def allocating : IRModule where
  functions := [⟨"malloc", none⟩, ⟨"__rust_alloc", none⟩,
    ⟨"f", some [.call ⟨.call, 0, .function "__rust_alloc", [.other "8", .other "1"], false, none⟩,
      .ret (some (.result 0))]⟩]
  globals := []
  declared := by
    intro F hF c hc f hf
    rcases List.mem_cons.mp hF with rfl | hF
    · cases hc
    · rcases List.mem_cons.mp hF with rfl | hF
      · cases hc
      · obtain rfl := List.mem_singleton.mp hF
        obtain rfl := List.mem_singleton.mp hc
        obtain rfl := Callee.function.inj hf
        decide

/-- Its allocation comes to a stub that gives a zero: `malloc_function` is `malloc.1`, which is in no list. -/
theorem run_allocating :
    run dotted unmangled id 10 allocating =
      some [⟨"malloc", none⟩, ⟨"__rust_alloc", none⟩,
        ⟨"f", some [.call ⟨.call, 0, .function "function_rust_alloc0", [.other "8", .other "1"], false, none⟩,
          .ret (some (.result 0))]⟩,
        ⟨"malloc.1", none⟩,
        ⟨"function_rust_alloc0", some [.call ⟨.call, 0, .function "symbolic_dummy0", [.param 0], false, none⟩,
          .ret (some (.result 0))]⟩,
        ⟨"symbolic_dummy0", some [.other 0 "load" [.other "symbolic_ret"], .ret (some (.result 0))]⟩] := by
  decide +kernel

end Assure
