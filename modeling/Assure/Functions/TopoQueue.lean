import Assure.Functions.Components
import Assure.Library.Collections
import Assure.Library.Condensation

/-!
# The queue of function groups

`createSccTopoQueue` condenses the function map into its mutually recursive groups, records which
group consumes which, and queues the groups that wait for none. The loop of
`_runSccTopoTranslateLoop` takes groups from the queue, translates each, and lowers the in-degree of
its consumers, queueing those that reach zero (`sccPass`, `runSccLoop`). The translation of a group
is a parameter here: a function `unit` on the variables the units share, which may succeed or fail in
any way. `dequeued` and `decrements` are a history the proofs read; the program keeps neither.

The scheduling is the algorithm of `Assure.Library.Kahn` (`SccLoop.toKahn`), over edges that lead to
later groups because the groups come out callees first.
-/

namespace Assure

open Assure.Library

/-- **The result of `createSccTopoQueue`.** The dictionaries from group numbers are functions, the
empty set and zero where they have no entry. -/
structure SccTopoQueue where
  sccQueue : List Nat
  sccIncomingEdges : Nat → Int
  sccConsumers : Nat → Finset Nat
  sccs : List (List String)
  funcToScc : String → Option Nat
  contextedStructs : String

/-- `contextedStructs`: the Rust code of the types in dependency order, each distinct text once. An
entry is the code of a type node, `none` where the registry has no node for the key. -/
def contextedStructs (typeCodes : List (Option String)) : String :=
  (typeCodes.foldl (fun (acc : String × List String) code =>
    match code with
    | none => acc
    | some rustCode =>
      if rustCode = "" ∨ rustCode ∈ acc.2 then acc
      else (acc.1 ++ "\n" ++ rustCode, rustCode :: acc.2)) ("", [])).1

/-- `funcToScc`: the number of the group a function is in. -/
def funcToScc (sccs : List (List String)) : String → Option Nat := numberOf sccs

/-- `sccConsumers` and `sccIncomingEdges`: one edge for each pair of groups with a dependency
between them. -/
def sccEdges (funcMap : FuncMap) (toScc : String → Option Nat) : Kahn.Edges :=
  funcMap.keys.foldl (fun e funcName =>
    match toScc funcName with
    | none => e
    | some mySccId =>
      (funcMap.dependFunctions funcName).foldl (fun e dep =>
        match toScc dep with
        | none => e
        | some depSccId => if depSccId = mySccId then e else e.add depSccId mySccId) e)
    Kahn.Edges.empty

/-- **`createSccTopoQueue`** -/
def createSccTopoQueue (funcMap : FuncMap) (typeCodes : List (Option String)) :
    Option SccTopoQueue :=
  (findStronglyConnectedComponents funcMap).map fun sccs =>
    let toScc := funcToScc sccs
    let edges := sccEdges funcMap toScc
    { sccQueue := (List.range sccs.length).filter fun sccId => edges.count sccId = 0
      sccIncomingEdges := edges.count
      sccConsumers := edges.consumers
      sccs := sccs
      funcToScc := toScc
      contextedStructs := contextedStructs typeCodes }

/-! ## The loop over the queue -/

/-- The variables of the loop: the queue, the in-degrees, what the units share (`world`), and the
history of dequeued groups and of the in-degrees each group was lowered to. -/
structure SccLoop (ω : Type*) where
  sccQueue : List Nat
  sccIncomingEdges : Nat → Int
  world : ω
  dequeued : List Nat
  decrements : Nat → List Int

variable {ω : Type*}

/-- The loop before its first pass. -/
def SccLoop.start (q : SccTopoQueue) (world : ω) : SccLoop ω :=
  ⟨q.sccQueue, q.sccIncomingEdges, world, [], fun _ => []⟩

/-- One pass of `for consumerSccId in sccConsumers[sccId]`. -/
def SccLoop.decrement (st : SccLoop ω) (consumerSccId : Nat) : SccLoop ω :=
  { st with
    sccIncomingEdges := Function.update st.sccIncomingEdges consumerSccId
      (st.sccIncomingEdges consumerSccId - 1)
    sccQueue := if st.sccIncomingEdges consumerSccId - 1 = 0 then st.sccQueue ++ [consumerSccId]
      else st.sccQueue
    decrements := Function.update st.decrements consumerSccId
      (st.decrements consumerSccId ++ [st.sccIncomingEdges consumerSccId - 1]) }

/-- **One pass of `while sccQueue`**: dequeue a group, translate it, and lower its consumers. `none`
when the unit raises. -/
def sccPass (order : SetOrder Nat) (q : SccTopoQueue) (unit : ω → List String → Option ω)
    (st : SccLoop ω) : Option (SccLoop ω) :=
  match st.sccQueue with
  | [] => none
  | sccId :: rest =>
    match q.sccs[sccId]? with
    | none => none
    | some sccGroup =>
      (unit st.world sccGroup).map fun world =>
        (order.toList (q.sccConsumers sccId)).foldl SccLoop.decrement
          { st with sccQueue := rest, world := world, dequeued := st.dequeued ++ [sccId] }

/-- **The loop of `_runSccTopoTranslateLoop`.** -/
def runSccLoop (order : SetOrder Nat) (q : SccTopoQueue) (unit : ω → List String → Option ω)
    (world : ω) : Option (SccLoop ω) :=
  whileLoop (fun st => !st.sccQueue.isEmpty) (sccPass order q unit) q.sccs.length (.start q world)

/-- `leftover`: the groups the loop never got to. -/
def SccLoop.leftover (q : SccTopoQueue) (st : SccLoop ω) : List Nat :=
  (List.range q.sccs.length).filter fun sid => 0 < st.sccIncomingEdges sid

/-- The states of the loop between passes. -/
def SccLoop.Reached (order : SetOrder Nat) (q : SccTopoQueue) (unit : ω → List String → Option ω)
    (world : ω) : SccLoop ω → Prop :=
  Relation.ReflTransGen (fun st st' => sccPass order q unit st = some st') (.start q world)

/-! ## What `createSccTopoQueue` builds -/

/-- The nested loops record the edges between the groups. -/
theorem sccEdges_eq (funcMap : FuncMap) (toScc : String → Option Nat) :
    sccEdges funcMap toScc = condense toScc (funcMap.keys.flatMap fun funcName =>
      (funcMap.dependFunctions funcName).map fun dep => (funcName, dep)) := by
  rw [condense_flatMap, sccEdges]
  congr 1
  funext e funcName
  cases hmy : toScc funcName with
  | none => simp [condensedPair, hmy]
  | some mySccId =>
    change List.foldl _ _ _ = List.foldl _ _ _
    congr 1
    funext e dep
    cases hdep : toScc dep with
    | none => simp [condensedPair, hmy, hdep]
    | some depSccId => by_cases h : depSccId = mySccId <;> simp [condensedPair, hmy, hdep, h]

end Assure
