import Assure.Library.Collections
import Mathlib.Logic.Relation
import Mathlib.Data.String.Basic

/-!
# The functions to translate

`funcMap` maps the name of every C function of the codebase to its `FunctionAndDependencies` record.
The translation loop reads which functions a function depends on and the signature of its
translation, and writes the signature and what was translated before.
-/

namespace Assure

open Assure.Library Relation

/-- What the translation loop reads and writes of a function (`FunctionAndDependencies`). -/
structure FunctionAndDependencies where
  dependFunctions : List String
  targetLangSignature : String
  previouslyTranslatedFunctions : String
  previouslyTranslatedFunctionSignatures : String

/-- A record as the constructor leaves it, with its dependencies set. -/
def FunctionAndDependencies.ofDependencies (dependFunctions : List String) :
    FunctionAndDependencies := ⟨dependFunctions, "", "", ""⟩

/-- **The function map**: the records of the codebase's functions, by name. -/
abbrev FuncMap := Dict String FunctionAndDependencies

namespace FuncMap

/-- `funcMap[f].dependFunctions`, nothing for a name that is no key. -/
def dependFunctions (funcMap : FuncMap) (f : String) : List String :=
  ((funcMap.get? f).map FunctionAndDependencies.dependFunctions).getD []

/-- `g` is a dependency of `f` inside the map. -/
def Callee (funcMap : FuncMap) (f g : String) : Prop :=
  g ∈ funcMap.dependFunctions f ∧ g ∈ funcMap.keys

/-- `g` is reachable from `f` along dependencies inside the map. -/
def Reaches (funcMap : FuncMap) : String → String → Prop := ReflTransGen funcMap.Callee

/-- A function map whose records are as constructed, from an edge list with distinct callers. -/
def ofEdges (edges : List (String × List String)) (nodup : (edges.map Prod.fst).Nodup) : FuncMap where
  entries := edges.map fun e => (e.1, .ofDependencies e.2)
  nodup := by simpa [Function.comp_def] using nodup

end FuncMap

end Assure
