import Assure.Comparison.KqueryGrapher

/-!
# Expressions without sharing

`inline` writes a definition where its name is used and leaves the name away. It goes through an
expression as the visitor does, from left to right, and also through what updates are made to, of which
the visitor takes only the text.

An expression is `shareable` when the visitor draws the names it uses as it draws what they stand for. That is said of
expressions whose visit does not raise; when it raises is reckoned by `KqueryExpr.raises`.
-/

namespace Assure

open Assure.Library

/-- What a name stands for, and whether the visitor keeps its definition. -/
structure Shared where
  body : KqueryExpr
  seen : Bool

/-- The names that are defined. -/
abbrev Scope := String → Option Shared

/-- No name is defined. -/
def Scope.empty : Scope := fun _ => none

/-- An expression that can stand in the place of a version. -/
def KqueryExpr.asVersion : KqueryExpr → Option KqueryVersion
  | .version updates target => some (.updated updates target)
  | .identifier name => some (.name name)
  | _ => none

/-! ## Inlining -/

mutual

/-- **An expression with every definition at its uses**, and the names defined after it. -/
def KqueryExpr.inline (seen : Bool) : KqueryExpr → Scope → KqueryExpr × Scope
  | .identifier name, scope => (((scope name.text).map Shared.body).getD (.identifier name), scope)
  | .number number, scope => (.number number, scope)
  | .definition name e, scope =>
    let f := e.inline seen scope
    (f.1, Function.update f.2 name.text (some ⟨f.1, seen⟩))
  | .numberWithType type number, scope => (.numberWithType type number, scope)
  | .arrayDeclaration name size domain range init, scope =>
    (.arrayDeclaration name size domain range init, scope)
  | .arithmetic kind type e1 e2, scope =>
    let f1 := e1.inline seen scope
    let f2 := e2.inline seen f1.2
    (.arithmetic kind type f1.1 f2.1, f2.2)
  | .bitwise kind type e1 e2, scope =>
    let f1 := e1.inline seen scope
    let f2 := e2.inline seen f1.2
    (.bitwise kind type f1.1 f2.1, f2.2)
  | .comparison kind type e1 e2, scope =>
    let f1 := e1.inline seen scope
    let f2 := e2.inline seen f1.2
    (.comparison kind type f1.1 f2.1, f2.2)
  | .bv kind type e1 e2, scope =>
    let f1 := e1.inline seen scope
    let f2 := e2.inline seen f1.2
    (.bv kind type f1.1 f2.1, f2.2)
  | .extension kind type e, scope =>
    let f := e.inline seen scope
    (.extension kind type f.1, f.2)
  | .read type e version, scope =>
    let f := e.inline seen scope
    let v := version.inline seen f.2
    (.read type f.1 v.1, v.2)
  | .select type e1 e2 e3, scope =>
    let f1 := e1.inline seen scope
    let f2 := e2.inline seen f1.2
    let f3 := e3.inline seen f2.2
    (.select type f1.1 f2.1 f3.1, f3.2)
  | .neg type e, scope =>
    let f := e.inline seen scope
    (.neg type f.1, f.2)
  | .arrayRead kind type e version, scope =>
    let f := e.inline seen scope
    let v := version.inline seen f.2
    (.arrayRead kind type f.1 v.1, v.2)
  | .version updates target, scope =>
    let us := updates.inline seen scope
    let v := target.inline false us.2
    (.version us.1 v.1, v.2)

/-- The same of a version. A definition or a use that stands for no version stays as it is. -/
def KqueryVersion.inline (seen : Bool) : KqueryVersion → Scope → KqueryVersion × Scope
  | .updated updates target, scope =>
    let us := updates.inline seen scope
    let v := target.inline false us.2
    (.updated us.1 v.1, v.2)
  | .name name, scope =>
    (((scope name.text).bind fun shared => shared.body.asVersion).getD (.name name), scope)
  | .definition name e, scope =>
    let f := e.inline seen scope
    match f.1.asVersion with
    | some version => (version, Function.update f.2 name.text (some ⟨f.1, false⟩))
    | none => (.definition name f.1, f.2)

/-- The same of updates. -/
def KqueryUpdates.inline (seen : Bool) : KqueryUpdates → Scope → KqueryUpdates × Scope
  | .nil, scope => (.nil, scope)
  | .cons offset value rest, scope =>
    let f1 := offset.inline seen scope
    let f2 := value.inline seen f1.2
    let us := rest.inline seen f2.2
    (.cons f1.1 f2.1 us.1, us.2)

end

mutual

/-- The names an expression defines. -/
def KqueryExpr.definedNames : KqueryExpr → List String
  | .identifier _ | .number _ | .numberWithType .. | .arrayDeclaration .. => []
  | .definition name e => name.text :: e.definedNames
  | .extension _ _ e | .neg _ e => e.definedNames
  | .arithmetic _ _ e1 e2 | .bitwise _ _ e1 e2 | .comparison _ _ e1 e2 | .bv _ _ e1 e2 =>
    e1.definedNames ++ e2.definedNames
  | .read _ e version | .arrayRead _ _ e version => e.definedNames ++ version.definedNames
  | .select _ e1 e2 e3 => e1.definedNames ++ (e2.definedNames ++ e3.definedNames)
  | .version updates target => updates.definedNames ++ target.definedNames

def KqueryVersion.definedNames : KqueryVersion → List String
  | .updated updates target => updates.definedNames ++ target.definedNames
  | .name _ => []
  | .definition name e => name.text :: e.definedNames

def KqueryUpdates.definedNames : KqueryUpdates → List String
  | .nil => []
  | .cons offset value rest => offset.definedNames ++ (value.definedNames ++ rest.definedNames)

end

/-! ## What the visitor draws the same -/

/-- No updates. -/
def KqueryUpdates.isNil : KqueryUpdates → Bool
  | .nil => true
  | .cons .. => false

mutual

/-- **No updates**, except in what is not drawn: what updates are made to, and under a negation. -/
def KqueryExpr.updateFree : KqueryExpr → Bool
  | .identifier _ | .number _ | .numberWithType .. | .arrayDeclaration .. | .neg .. => true
  | .definition _ e | .extension _ _ e => e.updateFree
  | .arithmetic _ _ e1 e2 | .bitwise _ _ e1 e2 | .comparison _ _ e1 e2 | .bv _ _ e1 e2 =>
    e1.updateFree && e2.updateFree
  | .read _ e version | .arrayRead _ _ e version => e.updateFree && version.updateFree
  | .select _ e1 e2 e3 => e1.updateFree && (e2.updateFree && e3.updateFree)
  | .version updates _ => updates.isNil

def KqueryVersion.updateFree : KqueryVersion → Bool
  | .updated updates _ => updates.isNil
  | .name _ => true
  | .definition _ e => e.updateFree

end

/-- Two names with one label: the same, or both of constant arrays. -/
def Identifier.readsAs (name other : Identifier) : Bool :=
  processValue name.text == processValue other.text

/-- An expression that is a name with the same label. -/
def Identifier.readsAsExpr (name : Identifier) : KqueryExpr → Bool
  | .identifier other => name.readsAs other
  | _ => false

/-- A version that is a name with the same label. -/
def Identifier.readsAsVersion (name : Identifier) : KqueryVersion → Bool
  | .name other => name.readsAs other
  | _ => false

/-- A use of a name whose definition is kept is drawn as a copy: from the node that is kept, which may be right or not,
and without the labels of edges. -/
def Shared.sameAs (right : Bool) (name : Identifier) (shared : Shared) : Bool :=
  if shared.seen then right && shared.body.updateFree else name.readsAsExpr shared.body

/-- Whether the node that is kept of a name is drawn as what the name stands for. -/
abbrev Rights := String → Bool

/-- First one operand and then another one. -/
def bothSame (first : Bool × Rights) (second : Rights → Bool × Rights) : Bool × Rights :=
  (first.1 && (second first.2).1, (second first.2).2)

mutual

/-- **Uses are drawn as what they stand for**: no updates in a definition that is used again, no definition and no use in
the place of a version, none that changes the text of what updates are made to, and none for a constant offset of an
update. Of a negation nothing is drawn, but the definitions in it are kept. -/
def KqueryExpr.shareable : KqueryExpr → Scope → Rights → Bool × Rights
  | .identifier name, scope, rights =>
    ((scope name.text).all fun shared => shared.sameAs (rights name.text) name, rights)
  | .number _, _, rights | .numberWithType .., _, rights | .arrayDeclaration .., _, rights => (true, rights)
  | .definition name e, scope, rights =>
    let r := e.shareable scope rights
    (r.1, Function.update r.2 name.text r.1)
  | .neg _ e, scope, rights => (true, (e.shareable scope rights).2)
  | .extension _ _ e, scope, rights => e.shareable scope rights
  | .arithmetic _ _ e1 e2, scope, rights | .bitwise _ _ e1 e2, scope, rights | .comparison _ _ e1 e2, scope, rights
  | .bv _ _ e1 e2, scope, rights => bothSame (e1.shareable scope rights) (e2.shareable (e1.inline true scope).2)
  | .read _ e version, scope, rights | .arrayRead _ _ e version, scope, rights =>
    bothSame (e.shareable scope rights) (version.shareable (e.inline true scope).2)
  | .select _ e1 e2 e3, scope, rights =>
    let scope2 := (e1.inline true scope).2
    bothSame (e1.shareable scope rights) fun rights =>
      bothSame (e2.shareable scope2 rights) (e3.shareable (e2.inline true scope2).2)
  | .version updates target, scope, rights =>
    let inlined := target.inline false (updates.inline true scope).2
    bothSame (updates.shareable scope rights) fun rights => (target.text == inlined.1.text, rights)

def KqueryVersion.shareable : KqueryVersion → Scope → Rights → Bool × Rights
  | .updated updates target, scope, rights =>
    let inlined := target.inline false (updates.inline true scope).2
    bothSame (updates.shareable scope rights) fun rights => (target.text == inlined.1.text, rights)
  | .name name, scope, rights =>
    (((scope name.text).bind fun shared => shared.body.asVersion).all name.readsAsVersion, rights)
  | .definition _ e, scope, rights =>
    bothSame (e.shareable scope rights) fun rights => ((e.inline true scope).1.asVersion.isNone, rights)

def KqueryUpdates.shareable : KqueryUpdates → Scope → Rights → Bool × Rights
  | .nil, _, rights => (true, rights)
  | .cons offset value rest, scope, rights =>
    let offset' := offset.inline true scope
    let value' := value.inline true offset'.2
    bothSame (isConcreteOffset offset.text == isConcreteOffset offset'.1.text, rights) fun rights =>
      bothSame (offset.shareable scope rights) fun rights =>
        bothSame (value.shareable offset'.2 rights) (rest.shareable value'.2)

end

/-- **The visitor draws an expression as it is inlined.** Nothing is kept before. -/
def KqueryExpr.drawnAsInlined (e : KqueryExpr) : Bool := (e.shareable .empty fun _ => true).1

end Assure
