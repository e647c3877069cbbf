import Assure.Comparison.Sharing

/-!
# Which definitions can be shared

What comes of an expression, a tree or an exception, is what comes of it with its definitions inlined exactly if both raise
or neither does and the expression is drawn as it is inlined (`visitExpr_inline`). A `None` that a typed `Concat` or `Extract`
leaves without an edge is part of the tree, so that the trees are compared beside it too.

Names are defined once: of an expression that defines a name again nothing is said.
-/

namespace Assure

open Assure.Library

/-! ## Inlining leaves no definition -/

/-- Names stand for expressions without definitions. -/
def Scope.Plain (scope : Scope) : Prop :=
  ∀ name shared, scope name = some shared → shared.body.plain = true

/-- Adding a plain definition keeps the definitions plain. -/
theorem Scope.Plain.update {scope : Scope} (h : scope.Plain) (name : String) {shared : Shared}
    (hshared : shared.body.plain = true) : Scope.Plain (Function.update scope name (some shared)) := by
  intro other found hfound
  by_cases hother : other = name
  · subst hother
    rw [Function.update_self] at hfound
    cases hfound
    exact hshared
  · rw [Function.update_of_ne hother] at hfound
    exact h other found hfound

mutual

/-- What is left when the names are put in is in the plain part of the grammar: it defines no name
and uses none that is defined. -/
theorem inline_plain (seen : Bool) : ∀ (e : KqueryExpr) {scope : Scope}, scope.Plain →
    (e.inline seen scope).1.plain = true ∧ (e.inline seen scope).2.Plain
  | .identifier name, scope, h => by
    rw [KqueryExpr.inline]
    refine ⟨?_, h⟩
    cases hname : scope name.text with
    | none =>
      show (KqueryExpr.identifier name).plain = true
      rw [KqueryExpr.plain]
    | some shared => exact h name.text shared hname
  | .number _, scope, h | .numberWithType .., scope, h | .arrayDeclaration .., scope, h => by
    rw [KqueryExpr.inline, KqueryExpr.plain]
    exact ⟨rfl, h⟩
  | .definition name e, scope, h => by
    obtain ⟨he, hscope⟩ := inline_plain seen e h
    rw [KqueryExpr.inline]
    exact ⟨he, hscope.update name.text he⟩
  | .extension _ _ e, scope, h | .neg _ e, scope, h => by
    rw [KqueryExpr.inline, KqueryExpr.plain]
    exact inline_plain seen e h
  | .arithmetic _ _ e1 e2, scope, h | .bitwise _ _ e1 e2, scope, h | .comparison _ _ e1 e2, scope, h
  | .bv _ _ e1 e2, scope, h => by
    obtain ⟨he1, hscope1⟩ := inline_plain seen e1 h
    obtain ⟨he2, hscope2⟩ := inline_plain seen e2 hscope1
    rw [KqueryExpr.inline, KqueryExpr.plain, Bool.and_eq_true]
    exact ⟨⟨he1, he2⟩, hscope2⟩
  | .read _ e version, scope, h | .arrayRead _ _ e version, scope, h => by
    obtain ⟨he, hscope⟩ := inline_plain seen e h
    obtain ⟨hv, hscope'⟩ := version_inline_plain seen version hscope
    rw [KqueryExpr.inline, KqueryExpr.plain, Bool.and_eq_true]
    exact ⟨⟨he, hv⟩, hscope'⟩
  | .select _ e1 e2 e3, scope, h => by
    obtain ⟨he1, hscope1⟩ := inline_plain seen e1 h
    obtain ⟨he2, hscope2⟩ := inline_plain seen e2 hscope1
    obtain ⟨he3, hscope3⟩ := inline_plain seen e3 hscope2
    rw [KqueryExpr.inline, KqueryExpr.plain, Bool.and_eq_true, Bool.and_eq_true]
    exact ⟨⟨he1, he2, he3⟩, hscope3⟩
  | .version updates target, scope, h => by
    obtain ⟨hus, hscope⟩ := updates_inline_plain seen updates h
    obtain ⟨-, hscope'⟩ := version_inline_plain false target hscope
    rw [KqueryExpr.inline, KqueryExpr.plain]
    exact ⟨hus, hscope'⟩

/-- The same for a version of an array. -/
theorem version_inline_plain (seen : Bool) : ∀ (version : KqueryVersion) {scope : Scope},
    scope.Plain → (version.inline seen scope).1.plain = true ∧ (version.inline seen scope).2.Plain
  | .updated updates target, scope, h => by
    obtain ⟨hus, hscope⟩ := updates_inline_plain seen updates h
    obtain ⟨-, hscope'⟩ := version_inline_plain false target hscope
    rw [KqueryVersion.inline, KqueryVersion.plain]
    exact ⟨hus, hscope'⟩
  | .name name, scope, h => by
    rw [KqueryVersion.inline]
    refine ⟨?_, h⟩
    cases hversion : (scope name.text).bind fun shared => shared.body.asVersion with
    | none =>
      show (KqueryVersion.name name).plain = true
      rw [KqueryVersion.plain]
    | some version =>
      obtain ⟨shared, hname, hbody⟩ := Option.bind_eq_some_iff.mp hversion
      exact plain_of_asVersion hbody (h name.text shared hname)
  | .definition name e, scope, h => by
    obtain ⟨he, hscope⟩ := inline_plain seen e h
    rw [KqueryVersion.inline]
    split
    · rename_i version hversion
      exact ⟨plain_of_asVersion hversion he, hscope.update name.text he⟩
    · rename_i hversion
      rw [KqueryVersion.plain, he, hversion]
      exact ⟨rfl, hscope⟩

/-- The same for a list of updates. -/
theorem updates_inline_plain (seen : Bool) : ∀ (updates : KqueryUpdates) {scope : Scope},
    scope.Plain → (updates.inline seen scope).1.plain = true ∧ (updates.inline seen scope).2.Plain
  | .nil, scope, h => by
    rw [KqueryUpdates.inline, KqueryUpdates.plain]
    exact ⟨rfl, h⟩
  | .cons offset value rest, scope, h => by
    obtain ⟨ho, hscope1⟩ := inline_plain seen offset h
    obtain ⟨hv, hscope2⟩ := inline_plain seen value hscope1
    obtain ⟨hr, hscope3⟩ := updates_inline_plain seen rest hscope2
    rw [KqueryUpdates.inline, KqueryUpdates.plain, Bool.and_eq_true, Bool.and_eq_true]
    exact ⟨⟨ho, hv, hr⟩, hscope3⟩

end

/-! ## Comparing an expression with what it is inlined to -/

/-- Two parts are drawn alike where the first is, and the second with the rights that the first has
left. -/
theorem bothSame_iff {first : Bool × Rights} {second : Rights → Bool × Rights} :
    (bothSame first second).1 = true ↔ first.1 = true ∧ (second first.2).1 = true := Bool.and_eq_true_iff

section

variable {baseAddress : List Int}

/-- What updates are made to defines names the visitor does not see. -/
theorem KeptAll.target {scope : Scope} {rights : Rights} {target : KqueryVersion} {definitions : String → Option PyNode}
    (hfresh : scope.Fresh target.definedNames) (h : KeptAll baseAddress (scope, rights) definitions) :
    KeptAll baseAddress ((target.inline false scope).2, rights) definitions := by
  refine h.hides (version_inline_hides target scope) fun name hname => ?_
  exact version_inline_scope false name target scope fun hmem => hname (hfresh.free name hmem)

/-- The name of an array is drawn the same with and without definitions, since arrays are not
defined. -/
theorem Compares.versionName (name : Identifier) (scope : Scope) (rights : Rights) :
    Compares baseAddress (scope, rights) (Assure.leafNode baseAddress name.text "")
      (((KqueryVersion.name name).inline true scope).1.drawn baseAddress) (scope, rights)
      (((KqueryVersion.name name).shareable scope rights).1 = true) True := by
  rw [KqueryVersion.inline, KqueryVersion.shareable]
  cases hversion : (scope name.text).bind fun shared => shared.body.asVersion with
  | none =>
    show Compares baseAddress (scope, rights) _ ((KqueryVersion.name name).drawn baseAddress) (scope, rights)
      (true = true) True
    rw [KqueryVersion.drawn]
    exact (Compares.leafNode name.text "").congr (iff_of_true trivial rfl) id
  | some version =>
    show Compares baseAddress (scope, rights) _ (version.drawn baseAddress) (scope, rights)
      (name.readsAsVersion version = true) True
    obtain ⟨shared, -, hbody⟩ := Option.bind_eq_some_iff.mp hversion
    obtain ⟨body, seen⟩ := shared
    cases body <;> cases hbody
    all_goals rw [KqueryVersion.drawn]
    · rename_i other
      exact Compares.leafAs drawn_eq_of_readsAs (readsAs_iff name other).mp
    · refine Compares.leafAs (fun h => ?_) fun h => absurd h (leaf_ne_updated _ _)
      cases h

/-- A definition in the place of a version gets a node of its own. -/
theorem not_same_versionDefinition {e : KqueryExpr} {version : KqueryVersion} {node : GraphNode} {t : PyNode}
    (he : e.asVersion = some version) (hroot : Rooted (e.drawn baseAddress) t)
    (hsame : PyNode.seen (.node (some node) [t]) = (e.drawn baseAddress).seen) : False := by
  cases e with
  | identifier name =>
    rw [KqueryExpr.drawn, drawnNode, PyNode.seen_node, Drawn.seen_node, RoseTree.node.injEq] at hsame
    cases hsame.2
  | version updates target =>
    rw [KqueryExpr.drawn, drawnUpdated] at hsame hroot
    rw [drawnNode, PyNode.seen_node, Drawn.seen_node, RoseTree.node.injEq] at hsame
    have hchildren := hsame.2
    cases updates with
    | cons offset value rest =>
      rw [KqueryUpdates.drawn] at hchildren
      cases congrArg List.length hchildren
    | nil =>
      -- the only child would be the target
      rw [KqueryUpdates.drawn] at hchildren
      have hlabel := congrArg RoseTree.label (List.cons.inj hchildren).1
      rw [PyNode.seen, Drawn.seen, RoseTree.label_map, RoseTree.label_map, drawnNode_label, Option.map_some] at hlabel
      have htarget : ∀ drawn, t.label.map GraphNode.drawn = some drawn → drawn.1 = targetMark target.text := by
        intro drawn hdrawn
        rw [hdrawn] at hlabel
        exact (congrArg Prod.fst (Option.some.inj hlabel)).trans (nodeValue_targetMark target.text)
      rcases hroot with hroot | ⟨value, hroot, hvalue⟩
      · have hversion : nodeValue baseAddress "version" = "version" :=
          nodeValue_of_operator (by decide +kernel) (by decide +kernel)
        have hlist := congrArg String.toList (hversion.symm.trans (htarget _ hroot))
        rw [targetMark_toList] at hlist
        cases hlist
      · exact hvalue target.text (htarget _ hroot)
  | _ => cases he

/-- A version and its place in an expression have updates or not. -/
theorem updateFree_asVersion {e : KqueryExpr} {version : KqueryVersion} (h : e.asVersion = some version) :
    version.updateFree = e.updateFree := by
  cases e <;> cases h <;> rw [KqueryVersion.updateFree, KqueryExpr.updateFree]

/-- A version that is given by a definition has a node more than the expression it stands for, so it
is drawn as inlined on no condition at all. -/
theorem Compares.versionDefinition {scope : Scope} {rights : Rights} {next : Known} {e : KqueryExpr}
    {version : KqueryVersion} {P free : Prop} (hversion : (e.inline true scope).1.asVersion = some version)
    (h : Compares baseAddress (scope, rights) (visitExpr baseAddress e) ((e.inline true scope).1.drawn baseAddress) next P
      free) :
    Compares baseAddress (scope, rights) (Assure.nodeFirst baseAddress "version" "" [visitExpr baseAddress e])
      (version.drawn baseAddress) next False free := by
  rw [drawn_asVersion hversion]
  intro s t s' hs hrun
  obtain ⟨s0, s1, node, ts, hs0, hvisits, hs1, hnode, -, hnew⟩ := Heads.nodeFirst "version" "" _ s t s' hrun
  obtain ⟨hresults, hkept⟩ := ComparesAll.single h s0 ts s1 (hs0 ▸ hs) hvisits
  obtain rfl := hnew hresults.roots
  have hresult := Result.node hnode hresults
  refine ⟨⟨hresult.settled, hresult.root, False.elim, ?_, hresult.copies⟩, hs1 ▸ hkept⟩
  intro hseen
  rw [visitAll, Visit.bind_run] at hvisits
  obtain ⟨⟨child, s2⟩, hvisit, hvisits⟩ := Option.bind_eq_some_iff.mp hvisits
  obtain ⟨rfl, -⟩ := Prod.mk.inj (Option.some.inj hvisits)
  exact not_same_versionDefinition hversion (visitExpr_root scope rights e s0 child s2 (hs0 ▸ hs) hvisit) hseen

variable (baseAddress) in
/-- An expression is compared with what it is inlined to. -/
def ComparesExpr (e : KqueryExpr) : Prop :=
  ∀ (scope : Scope) (rights : Rights), scope.Fresh e.definedNames → scope.Plain →
    Compares baseAddress (scope, rights) (visitExpr baseAddress e) ((e.inline true scope).1.drawn baseAddress)
      ((e.inline true scope).2, (e.shareable scope rights).2) ((e.shareable scope rights).1 = true)
      ((e.inline true scope).1.updateFree = true)

variable (baseAddress) in
/-- The same of a version. -/
def ComparesVersion (version : KqueryVersion) : Prop :=
  ∀ (scope : Scope) (rights : Rights), scope.Fresh version.definedNames → scope.Plain →
    Compares baseAddress (scope, rights) (visitVersion baseAddress version)
      ((version.inline true scope).1.drawn baseAddress)
      ((version.inline true scope).2, (version.shareable scope rights).2) ((version.shareable scope rights).1 = true)
      ((version.inline true scope).1.updateFree = true)

variable (baseAddress) in
/-- The same of updates. -/
def ComparesUpdates (updates : KqueryUpdates) : Prop :=
  ∀ (scope : Scope) (rights : Rights), scope.Fresh updates.definedNames → scope.Plain →
    ComparesAll baseAddress (scope, rights) (visitUpdates baseAddress updates)
      ((updates.inline true scope).1.drawn baseAddress)
      ((updates.inline true scope).2, (updates.shareable scope rights).2) ((updates.shareable scope rights).1 = true)
      ((updates.inline true scope).1.isNil = true)

/-- Two operands. -/
theorem two_compare {e1 e2 : KqueryExpr} (h1 : ComparesExpr baseAddress e1)
    (h2 : ComparesExpr baseAddress e2) {scope : Scope} (rights : Rights)
    (hfresh : scope.Fresh (e1.definedNames ++ e2.definedNames)) (hplain : scope.Plain) :
    ComparesAll baseAddress (scope, rights) [visitExpr baseAddress e1, visitExpr baseAddress e2]
      [(e1.inline true scope).1.drawn baseAddress, (e2.inline true (e1.inline true scope).2).1.drawn baseAddress]
      ((e2.inline true (e1.inline true scope).2).2,
        (bothSame (e1.shareable scope rights) (e2.shareable (e1.inline true scope).2)).2)
      ((bothSame (e1.shareable scope rights) (e2.shareable (e1.inline true scope).2)).1 = true)
      (((e1.inline true scope).1.updateFree && (e2.inline true (e1.inline true scope).2).1.updateFree) = true) := by
  have hright := hfresh.right fun name h => inline_scope true name e1 scope h
  exact (ComparesAll.cons (h1 scope rights hfresh.left hplain)
    (.single (h2 _ _ hright (inline_plain true e1 hplain).2))).congr bothSame_iff.symm Bool.and_eq_true_iff.mp

/-- An offset and a version. -/
theorem read_compare {e : KqueryExpr} {version : KqueryVersion} (he : ComparesExpr baseAddress e)
    (hversion : ComparesVersion baseAddress version) {scope : Scope} (rights : Rights)
    (hfresh : scope.Fresh (e.definedNames ++ version.definedNames)) (hplain : scope.Plain) :
    ComparesAll baseAddress (scope, rights) [visitExpr baseAddress e, visitVersion baseAddress version]
      [(e.inline true scope).1.drawn baseAddress,
        (version.inline true (e.inline true scope).2).1.drawn baseAddress]
      ((version.inline true (e.inline true scope).2).2,
        (bothSame (e.shareable scope rights) (version.shareable (e.inline true scope).2)).2)
      ((bothSame (e.shareable scope rights) (version.shareable (e.inline true scope).2)).1 = true)
      (((e.inline true scope).1.updateFree && (version.inline true (e.inline true scope).2).1.updateFree) = true) := by
  have hright := hfresh.right fun name h => inline_scope true name e scope h
  exact (ComparesAll.cons (he scope rights hfresh.left hplain)
    (.single (hversion _ _ hright (inline_plain true e hplain).2))).congr bothSame_iff.symm Bool.and_eq_true_iff.mp

/-- Inlining leaves an update list one. -/
theorem isNil_inline (updates : KqueryUpdates) (scope : Scope) :
    updates.isNil = (updates.inline true scope).1.isNil := by
  cases updates with
  | nil => rw [KqueryUpdates.inline]
  | cons => rw [KqueryUpdates.inline]; rfl

/-- Updates and what they are made to. -/
theorem updated_compares {updates : KqueryUpdates} (target : KqueryVersion)
    (h : ComparesUpdates baseAddress updates) {scope : Scope} (rights : Rights)
    (hfresh : scope.Fresh (updates.definedNames ++ target.definedNames)) (hplain : scope.Plain) :
    Compares baseAddress (scope, rights)
      (visitUpdated baseAddress (visitUpdates baseAddress updates) target.text)
      (drawnUpdated baseAddress ((updates.inline true scope).1.drawn baseAddress)
        (target.inline false (updates.inline true scope).2).1.text)
      ((target.inline false (updates.inline true scope).2).2, (updates.shareable scope rights).2)
      ((updates.shareable scope rights).1 = true ∧
        target.text = (target.inline false (updates.inline true scope).2).1.text)
      ((updates.inline true scope).1.isNil = true) := by
  have hright := hfresh.right fun name h => updates_inline_scope true name updates scope h
  refine Compares.updated (isNil_inline updates scope) ?_ (h scope rights hfresh.left hplain)
    fun definitions hdefs => hdefs.target hright
  intro hnil
  cases updates with
  | nil => rw [KqueryUpdates.shareable]
  | cons => cases hnil

/-- A list of updates is drawn alike if its first offset is a number on both sides or on neither,
and the offset, the value and the rest are. -/
theorem shareable_cons (offset value : KqueryExpr) (rest : KqueryUpdates) (scope : Scope) (rights : Rights) :
    ((KqueryUpdates.cons offset value rest).shareable scope rights).1 = true ↔
      ((isConcreteOffset offset.text = isConcreteOffset (offset.inline true scope).1.text ∧
        (offset.shareable scope rights).1 = true) ∧
          (value.shareable (offset.inline true scope).2 (offset.shareable scope rights).2).1 = true) ∧
        (rest.shareable (value.inline true (offset.inline true scope).2).2
          (value.shareable (offset.inline true scope).2 (offset.shareable scope rights).2).2).1 = true := by
  rw [KqueryUpdates.shareable, bothSame_iff, bothSame_iff, bothSame_iff, beq_iff_eq, and_assoc, and_assoc]

/-- The root of an offset is not marked by the visit of it. -/
theorem unmarked_of_rooted {e : KqueryExpr} {t : PyNode} (hmark : isConcreteOffset e.text = true)
    (hroot : Rooted (e.drawn baseAddress) t) : ∃ node, t.label = some node ∧ node.type ≠ "concrete_klee_offset" := by
  obtain ⟨number, rfl, hcheck⟩ := isConcreteOffset_text hmark
  have htype : ∃ value, t.label.map GraphNode.drawn = some (value, "", "") := by
    rcases hroot with hroot | ⟨value, hroot, -⟩
    · rw [KqueryExpr.drawn, drawnNode_label, nodeTypeValue, hcheck] at hroot
      exact ⟨_, hroot⟩
    · exact ⟨value, hroot⟩
  obtain ⟨value, hvalue⟩ := htype
  obtain ⟨node, hnode, hdrawn⟩ := Option.map_eq_some_iff.mp hvalue
  have hempty : node.type = "" := congrArg (fun drawn => drawn.2.1) hdrawn
  refine ⟨node, hnode, ?_⟩
  rw [hempty]
  simp

mutual

/-- **An expression compared with what it is inlined to.** -/
theorem visitExpr_compares : ∀ e : KqueryExpr, ComparesExpr baseAddress e
  | .identifier name, scope, rights, _, hplain => by
    rw [visitExpr]
    exact (Compares.identifier name scope rights (hplain name.text)).congr Iff.rfl fun _ => trivial
  | .number number, scope, rights, _, _ => by
    rw [visitExpr, KqueryExpr.inline, KqueryExpr.drawn, KqueryExpr.shareable]
    exact (Compares.leafNode number.text "").congr (iff_of_true trivial rfl) fun _ => trivial
  | .definition name e, scope, rights, hfresh, hplain => by
    rw [KqueryExpr.definedNames] at hfresh
    rw [visitExpr, KqueryExpr.inline, KqueryExpr.shareable]
    exact (visitExpr_compares e scope rights hfresh.tail hplain).definition (visitExpr_root scope rights e) name.text
  | .numberWithType _ _, scope, rights, _, _ => by
    rw [visitExpr, KqueryExpr.inline, KqueryExpr.drawn, KqueryExpr.shareable]
    exact Compares.none.congr (iff_of_true trivial rfl) fun _ => trivial
  | .arrayDeclaration name _ _ _ init, scope, rights, _, _ => by
    rw [visitExpr, KqueryExpr.inline, KqueryExpr.drawn, KqueryExpr.shareable]
    exact (Compares.arrayDeclaration name.text init).congr (iff_of_true trivial rfl) fun _ => trivial
  | .arithmetic kind type e1 e2, scope, rights, hfresh, hplain => by
    rw [KqueryExpr.definedNames] at hfresh
    rw [visitExpr, KqueryExpr.inline, KqueryExpr.drawn, KqueryExpr.updateFree, KqueryExpr.shareable]
    exact (Heads.operandsFirst kind.text type _).compares
      (two_compare (visitExpr_compares e1) (visitExpr_compares e2) rights hfresh hplain)
  | .bitwise kind type e1 e2, scope, rights, hfresh, hplain => by
    rw [KqueryExpr.definedNames] at hfresh
    rw [visitExpr, KqueryExpr.inline, KqueryExpr.drawn, KqueryExpr.updateFree, KqueryExpr.shareable]
    exact (Heads.operandsFirst kind.text (type.getD "") _).compares
      (two_compare (visitExpr_compares e1) (visitExpr_compares e2) rights hfresh hplain)
  | .comparison kind type e1 e2, scope, rights, hfresh, hplain => by
    rw [KqueryExpr.definedNames] at hfresh
    rw [visitExpr, KqueryExpr.inline, KqueryExpr.drawn, KqueryExpr.updateFree, KqueryExpr.shareable]
    exact (Heads.nodeFirst kind.text (type.getD "") _).compares
      (two_compare (visitExpr_compares e1) (visitExpr_compares e2) rights hfresh hplain)
  | .bv kind type e1 e2, scope, rights, hfresh, hplain => by
    rw [KqueryExpr.definedNames] at hfresh
    rw [visitExpr, KqueryExpr.inline, KqueryExpr.drawn, KqueryExpr.updateFree, KqueryExpr.shareable]
    exact (Heads.bv kind type _ _).compares
      (two_compare (visitExpr_compares e1) (visitExpr_compares e2) rights hfresh hplain)
  | .extension kind type e, scope, rights, hfresh, hplain => by
    rw [KqueryExpr.definedNames] at hfresh
    rw [visitExpr, KqueryExpr.inline, KqueryExpr.drawn, KqueryExpr.updateFree, KqueryExpr.shareable]
    exact (Heads.operandsFirst kind.text type _).compares (.single (visitExpr_compares e scope rights hfresh hplain))
  | .read type e version, scope, rights, hfresh, hplain => by
    rw [KqueryExpr.definedNames] at hfresh
    rw [visitExpr, KqueryExpr.inline, KqueryExpr.drawn, KqueryExpr.updateFree, KqueryExpr.shareable]
    exact (Heads.operandsFirst "Read" type _).compares
      (read_compare (visitExpr_compares e) (visitVersion_compares version) rights hfresh hplain)
  | .select type e1 e2 e3, scope, rights, hfresh, hplain => by
    rw [KqueryExpr.definedNames] at hfresh
    rw [visitExpr, KqueryExpr.inline, KqueryExpr.drawn, KqueryExpr.updateFree, KqueryExpr.shareable]
    have hright := hfresh.right fun name h => inline_scope true name e1 scope h
    have hbranches := two_compare (visitExpr_compares e2) (visitExpr_compares e3) (e1.shareable scope rights).2 hright
      (inline_plain true e1 hplain).2
    exact (Heads.nodeFirst "Select" type _).compares
      ((ComparesAll.cons (visitExpr_compares e1 scope rights hfresh.left hplain) hbranches).congr
        (Iff.symm (by exact bothSame_iff)) Bool.and_eq_true_iff.mp)
  | .neg type e, scope, rights, hfresh, hplain => by
    rw [KqueryExpr.definedNames] at hfresh
    rw [visitExpr, KqueryExpr.inline, KqueryExpr.drawn, KqueryExpr.shareable]
    exact ((visitExpr_compares e scope rights hfresh hplain).neg type).congr (iff_of_true trivial rfl) fun _ => trivial
  | .arrayRead kind type e version, scope, rights, hfresh, hplain => by
    rw [KqueryExpr.definedNames] at hfresh
    rw [visitExpr, KqueryExpr.inline, KqueryExpr.drawn, KqueryExpr.updateFree, KqueryExpr.shareable]
    exact (Heads.operandsFirst kind.text type _).compares
      (read_compare (visitExpr_compares e) (visitVersion_compares version) rights hfresh hplain)
  | .version updates target, scope, rights, hfresh, hplain => by
    rw [KqueryExpr.definedNames] at hfresh
    rw [visitExpr, KqueryExpr.inline, KqueryExpr.drawn, KqueryExpr.updateFree, KqueryExpr.shareable, bothSame_iff,
      beq_iff_eq]
    exact updated_compares target (visitUpdates_compares updates) rights hfresh hplain

/-- A version of an array compares with its drawing, by the mutual recursion of the grammar. -/
theorem visitVersion_compares : ∀ version : KqueryVersion, ComparesVersion baseAddress version
  | .updated updates target, scope, rights, hfresh, hplain => by
    rw [KqueryVersion.definedNames] at hfresh
    rw [visitVersion, KqueryVersion.inline, KqueryVersion.drawn, KqueryVersion.updateFree, KqueryVersion.shareable,
      bothSame_iff, beq_iff_eq]
    exact updated_compares target (visitUpdates_compares updates) rights hfresh hplain
  | .name name, scope, rights, _, _ => by
    rw [visitVersion]
    exact (Compares.versionName name scope rights).congr Iff.rfl fun _ => trivial
  | .definition name e, scope, rights, hfresh, hplain => by
    rw [KqueryVersion.definedNames] at hfresh
    have he := visitExpr_compares e scope rights hfresh.tail hplain
    rw [visitVersion, KqueryVersion.shareable, KqueryVersion.inline, bothSame_iff]
    cases hversion : (e.inline true scope).1.asVersion with
    | none =>
      simp only [KqueryVersion.drawn, KqueryVersion.updateFree]
      exact (Heads.nodeFirst "version" "" _).compares (.single (he.congr (and_iff_left rfl).symm id))
    | some version =>
      have hnext : ∀ definitions,
          KeptAll baseAddress ((e.inline true scope).2, (e.shareable scope rights).2) definitions →
            KeptAll baseAddress (Function.update (e.inline true scope).2 name.text (some ⟨(e.inline true scope).1, false⟩),
              (e.shareable scope rights).2) definitions := by
        intro definitions hdefs
        refine hdefs.hides ((Scope.HidesIn.refl _).update name.text _) fun other hother => ?_
        refine Function.update_of_ne (fun heq => hother ?_) _ _
        rw [heq, inline_scope true name.text e scope (List.nodup_cons.mp hfresh.nodup).1]
        exact hfresh.free name.text List.mem_cons_self
      refine (Compares.versionDefinition hversion (he.next_congr hnext)).congr (iff_of_false id fun h => ?_) ?_
      · cases h.2
      · rw [updateFree_asVersion hversion]
        exact id

/-- A list of updates compares with its drawings. -/
theorem visitUpdates_compares : ∀ updates : KqueryUpdates, ComparesUpdates baseAddress updates
  | .nil, scope, rights, _, _ => by
    rw [visitUpdates, KqueryUpdates.inline, KqueryUpdates.drawn, KqueryUpdates.shareable]
    exact ComparesAll.nil.congr (iff_of_true trivial rfl) fun _ => trivial
  | .cons offset value rest, scope, rights, hfresh, hplain => by
    rw [KqueryUpdates.definedNames] at hfresh
    have hright := hfresh.right fun name h => inline_scope true name offset scope h
    have hplain1 := (inline_plain true offset hplain).2
    have hoffset := visitExpr_compares offset scope rights hfresh.left hplain
    have hvalue := visitExpr_compares value _ (offset.shareable scope rights).2 hright.left hplain1
    have hrest := visitUpdates_compares rest (value.inline true (offset.inline true scope).2).2
      (value.shareable (offset.inline true scope).2 (offset.shareable scope rights).2).2
      (hright.right fun name h => inline_scope true name value _ h) (inline_plain true value hplain1).2
    have hmarked : isConcreteOffset offset.text = true → isConcreteOffset (offset.inline true scope).1.text = true ∧
        (offset.shareable scope rights).1 = true := by
      intro hmark
      obtain ⟨number, rfl, -⟩ := isConcreteOffset_text hmark
      rw [KqueryExpr.inline, KqueryExpr.shareable]
      exact ⟨hmark, rfl⟩
    have hupdate := Compares.update hoffset hvalue (KqueryExpr.drawn_root _) (KqueryExpr.drawn_root _) hmarked
      fun hother s t s' hs hrun => unmarked_of_rooted hother (visitExpr_root scope rights offset s t s' hs hrun)
    have hall := ComparesAll.cons hupdate hrest
    rw [visitUpdates, KqueryUpdates.inline, KqueryUpdates.drawn]
    exact hall.congr (shareable_cons offset value rest scope rights).symm fun h => absurd h Bool.false_ne_true

end

/-! ## Expressions without definitions -/

/-- Nothing is kept before. -/
theorem keptAll_fresh (rights : Rights) : KeptAll baseAddress (Scope.empty, rights) GrapherState.fresh.definitions :=
  fun name => .free (rights name)

/-- Two operands that are drawn alike one after the other. -/
theorem ComparesAll.both {known mid next : Known} {visit1 visit2 : Visit PyNode} {tree1 tree2 : Drawn}
    (h1 : Compares baseAddress known visit1 tree1 mid True False)
    (h2 : Compares baseAddress mid visit2 tree2 next True False) :
    ComparesAll baseAddress known [visit1, visit2] [tree1, tree2] next True False :=
  (ComparesAll.cons h1 (.single h2)).congr and_self_iff fun h => ⟨h, h⟩

/-- A read through updates whose drawings are compared. It is never free of edge labels. -/
theorem Compares.versionUpdated {known : Known} (updates : KqueryUpdates) (targetText : String)
    (h : ComparesAll baseAddress known (visitUpdates baseAddress updates) (updates.drawn baseAddress) known True False) :
    Compares baseAddress known (visitUpdated baseAddress (visitUpdates baseAddress updates) targetText)
      (drawnUpdated baseAddress (updates.drawn baseAddress) targetText) known True False :=
  (Compares.updated rfl (fun _ => trivial) h fun _ => id).congr (iff_of_true ⟨trivial, rfl⟩ trivial) False.elim

section

variable {rights : Rights}

mutual

/-- **The tree of an expression without definitions.** -/
theorem visitExpr_plain : ∀ e : KqueryExpr, e.plain = true →
    Compares baseAddress (Scope.empty, rights) (visitExpr baseAddress e) (e.drawn baseAddress) (Scope.empty, rights) True
      False
  | .identifier name, _ => by
    have hname : Compares baseAddress (Scope.empty, rights) _ _ _ _ _ :=
      Compares.identifier name Scope.empty rights fun _ h => absurd h (by simp [Scope.empty])
    rw [KqueryExpr.inline, KqueryExpr.shareable] at hname
    rw [visitExpr]
    exact hname.congr (iff_of_true rfl trivial) False.elim
  | .number number, _ => by
    rw [visitExpr, KqueryExpr.drawn]
    exact (Compares.leafNode number.text "").congr Iff.rfl False.elim
  | .definition _ _, hplain => by
    rw [KqueryExpr.plain] at hplain
    cases hplain
  | .numberWithType _ _, _ => by
    rw [visitExpr, KqueryExpr.drawn]
    exact Compares.none.congr Iff.rfl False.elim
  | .neg type e, hplain => by
    rw [KqueryExpr.plain] at hplain
    rw [visitExpr, KqueryExpr.drawn]
    exact ((visitExpr_plain e hplain).neg type).congr Iff.rfl False.elim
  | .arrayDeclaration name _ _ _ init, _ => by
    rw [visitExpr, KqueryExpr.drawn]
    exact (Compares.arrayDeclaration name.text init).congr Iff.rfl False.elim
  | .arithmetic kind type e1 e2, hplain => by
    rw [KqueryExpr.plain, Bool.and_eq_true] at hplain
    rw [visitExpr, KqueryExpr.drawn]
    exact (Heads.operandsFirst kind.text type _).compares
      (.both (visitExpr_plain e1 hplain.1) (visitExpr_plain e2 hplain.2))
  | .bitwise kind type e1 e2, hplain => by
    rw [KqueryExpr.plain, Bool.and_eq_true] at hplain
    rw [visitExpr, KqueryExpr.drawn]
    exact (Heads.operandsFirst kind.text (type.getD "") _).compares
      (.both (visitExpr_plain e1 hplain.1) (visitExpr_plain e2 hplain.2))
  | .comparison kind type e1 e2, hplain => by
    rw [KqueryExpr.plain, Bool.and_eq_true] at hplain
    rw [visitExpr, KqueryExpr.drawn]
    exact (Heads.nodeFirst kind.text (type.getD "") _).compares
      (.both (visitExpr_plain e1 hplain.1) (visitExpr_plain e2 hplain.2))
  | .bv kind type e1 e2, hplain => by
    rw [KqueryExpr.plain, Bool.and_eq_true] at hplain
    rw [visitExpr, KqueryExpr.drawn]
    exact (Heads.bv kind type _ _).compares (.both (visitExpr_plain e1 hplain.1) (visitExpr_plain e2 hplain.2))
  | .extension kind type e, hplain => by
    rw [KqueryExpr.plain] at hplain
    rw [visitExpr, KqueryExpr.drawn]
    exact (Heads.operandsFirst kind.text type _).compares (.single (visitExpr_plain e hplain))
  | .read type e version, hplain => by
    rw [KqueryExpr.plain, Bool.and_eq_true] at hplain
    rw [visitExpr, KqueryExpr.drawn]
    exact (Heads.operandsFirst "Read" type _).compares
      (.both (visitExpr_plain e hplain.1) (visitVersion_plain version hplain.2))
  | .select type e1 e2 e3, hplain => by
    rw [KqueryExpr.plain, Bool.and_eq_true, Bool.and_eq_true] at hplain
    rw [visitExpr, KqueryExpr.drawn]
    have hbranches := ComparesAll.both (visitExpr_plain e2 hplain.2.1) (visitExpr_plain e3 hplain.2.2)
    exact (Heads.nodeFirst "Select" type _).compares
      ((ComparesAll.cons (visitExpr_plain e1 hplain.1) hbranches).congr and_self_iff fun h => ⟨h, h⟩)
  | .arrayRead kind type e version, hplain => by
    rw [KqueryExpr.plain, Bool.and_eq_true] at hplain
    rw [visitExpr, KqueryExpr.drawn]
    exact (Heads.operandsFirst kind.text type _).compares
      (.both (visitExpr_plain e hplain.1) (visitVersion_plain version hplain.2))
  | .version updates target, hplain => by
    rw [KqueryExpr.plain] at hplain
    rw [visitExpr, KqueryExpr.drawn]
    exact Compares.versionUpdated updates target.text (visitUpdates_plain updates hplain)

/-- A plain version is drawn as itself, whichever rights are left. -/
theorem visitVersion_plain : ∀ version : KqueryVersion, version.plain = true →
    Compares baseAddress (Scope.empty, rights) (visitVersion baseAddress version) (version.drawn baseAddress)
      (Scope.empty, rights) True False
  | .updated updates target, hplain => by
    rw [KqueryVersion.plain] at hplain
    rw [visitVersion, KqueryVersion.drawn]
    exact Compares.versionUpdated updates target.text (visitUpdates_plain updates hplain)
  | .name name, _ => by
    rw [visitVersion, KqueryVersion.drawn]
    exact (Compares.leafNode name.text "").congr Iff.rfl False.elim
  | .definition _ e, hplain => by
    rw [KqueryVersion.plain, Bool.and_eq_true] at hplain
    rw [visitVersion, KqueryVersion.drawn]
    exact (Heads.nodeFirst "version" "" _).compares (.single (visitExpr_plain e hplain.1))

/-- A plain list of updates is drawn as itself. -/
theorem visitUpdates_plain : ∀ updates : KqueryUpdates, updates.plain = true →
    ComparesAll baseAddress (Scope.empty, rights) (visitUpdates baseAddress updates) (updates.drawn baseAddress)
      (Scope.empty, rights) True False
  | .nil, _ => by
    rw [visitUpdates, KqueryUpdates.drawn]
    exact ComparesAll.nil.congr Iff.rfl False.elim
  | .cons offset value rest, hplain => by
    rw [KqueryUpdates.plain, Bool.and_eq_true, Bool.and_eq_true] at hplain
    have hoffset := visitExpr_plain offset hplain.1
    have hunmarked : isConcreteOffset offset.text = true → ∀ (s : GrapherState) (t : PyNode) (s' : GrapherState),
        KeptAll baseAddress (Scope.empty, rights) s.definitions → visitExpr baseAddress offset s = some (t, s') →
          ∃ node, t.label = some node ∧ node.type ≠ "concrete_klee_offset" := by
      intro hmark s t s' hs hrun
      refine @unmarked_of_rooted baseAddress _ _ hmark ?_
      obtain ⟨number, rfl, -⟩ := isConcreteOffset_text hmark
      rw [visitExpr] at hrun
      rw [KqueryExpr.drawn]
      exact (Heads.leafNode number.text "").roots [] s t s' hs hrun
    have hupdate := Compares.update hoffset (visitExpr_plain value hplain.2.1) (KqueryExpr.drawn_root _)
      (KqueryExpr.drawn_root _) (fun h => ⟨h, trivial⟩) hunmarked
    rw [visitUpdates, KqueryUpdates.drawn]
    exact (ComparesAll.cons hupdate (visitUpdates_plain rest hplain.2.2)).congr (by simp) False.elim

end

end

end

/-! ## Shared definitions -/

/-- **What comes of an expression**: the tree the visitor draws, with the `None`s that are in it, or none if it raises. -/
def KqueryExpr.outcome (baseAddress : List Int) (e : KqueryExpr) : Option (RoseTree (Option (String × String × String))) :=
  (visitExpr baseAddress e .fresh).map fun result => result.1.seen

/-- The visit of an expression gives nothing at all exactly if it raises. -/
theorem outcome_eq_none_iff (baseAddress : List Int) {e : KqueryExpr} : e.outcome baseAddress = none ↔ e.raises = true := by
  rw [KqueryExpr.outcome, Option.map_eq_none_iff]
  exact visitExpr_eq_none_iff

/-- What comes of an expression without definitions is its tree. -/
theorem outcome_plain {baseAddress : List Int} {e : KqueryExpr} (hplain : e.plain = true) (h : e.raises = false) :
    e.outcome baseAddress = some (e.drawn baseAddress).seen := by
  have hplain : Compares baseAddress _ _ _ _ _ _ := @visitExpr_plain _ (fun _ => true) e hplain
  cases hrun : visitExpr baseAddress e .fresh with
  | none =>
    rw [visitExpr_eq_none_iff.mp hrun] at h
    cases h
  | some result =>
    have hresult := (hplain .fresh result.1 result.2 (keptAll_fresh _) hrun).1
    rw [KqueryExpr.outcome, hrun, Option.map_some, ← PyNode.seen_fields, hresult.shows trivial]

/-- Of an expression that does not raise there comes the tree of what it is inlined to where it is drawn as inlined. -/
theorem outcome_iff_drawnAsInlined {baseAddress : List Int} {e : KqueryExpr} (hnames : e.definedNames.Nodup)
    (h : e.raises = false) :
    e.outcome baseAddress = some ((e.inline true .empty).1.drawn baseAddress).seen ↔ e.drawnAsInlined = true := by
  have hcompares : Compares baseAddress _ _ _ _ _ _ :=
    visitExpr_compares e .empty (fun _ => true) ⟨hnames, fun _ _ => rfl⟩ fun _ _ h => absurd h (by simp [Scope.empty])
  cases hrun : visitExpr baseAddress e .fresh with
  | none =>
    rw [visitExpr_eq_none_iff.mp hrun] at h
    cases h
  | some result =>
    have hresult := (hcompares .fresh result.1 result.2 (keptAll_fresh _) hrun).1
    rw [KqueryExpr.outcome, hrun, Option.map_some, Option.some.injEq]
    refine ⟨hresult.needs, fun hdrawn => ?_⟩
    rw [← PyNode.seen_fields, hresult.shows hdrawn]

/-- **Shared definitions.** Of an expression where every name is defined once, there comes what comes of the expression with
every definition inlined exactly if both visits raise, or neither does and it is drawn as it is inlined. -/
theorem visitExpr_inline (baseAddress : List Int) (e : KqueryExpr) (h : e.definedNames.Nodup) :
    e.outcome baseAddress = (e.inline true .empty).1.outcome baseAddress ↔
      e.raises = (e.inline true .empty).1.raises ∧ (e.raises = false → e.drawnAsInlined = true) := by
  have hplain : (e.inline true .empty).1.plain = true :=
    (inline_plain true e fun _ _ h => absurd h (by simp [Scope.empty])).1
  constructor
  · intro hsame
    have hraises : e.raises = (e.inline true .empty).1.raises := by
      rw [Bool.eq_iff_iff, ← outcome_eq_none_iff baseAddress,
        ← outcome_eq_none_iff baseAddress, hsame]
    refine ⟨hraises, fun he => (outcome_iff_drawnAsInlined h he).mp (hsame.trans (outcome_plain hplain ?_))⟩
    rw [← hraises, he]
  · rintro ⟨hraises, hdrawn⟩
    cases he : e.raises with
    | true => rw [(outcome_eq_none_iff baseAddress).mpr he, (outcome_eq_none_iff baseAddress).mpr (hraises ▸ he)]
    | false => rw [(outcome_iff_drawnAsInlined h he).mpr (hdrawn he), outcome_plain hplain (hraises ▸ he)]

/-- A sum that is used again. -/
theorem visitExpr_inline_sum :
    let x : KqueryExpr := .identifier ⟨"x", by decide +kernel⟩
    let sum : KqueryExpr := .definition ⟨"N0", by decide +kernel⟩ (.arithmetic .add "w32" x x)
    let e : KqueryExpr := .arithmetic .mul "w32" sum (.identifier ⟨"N0", by decide +kernel⟩)
    e.outcome [] = (e.inline true .empty).1.outcome [] :=
  (visitExpr_inline [] _ (by decide)).mpr ⟨by decide +kernel, fun _ => by decide +kernel⟩

/-- The edges to offset and value lose their labels where an update list is used again, also beside a `None`, and an update
list shared by two reads is no update list in the second. Of a tree with a `None` there is no copy. -/
theorem visitExpr_inline_updates :
    let zero : KqueryExpr := .number .zero
    let arr : KqueryVersion := .name ⟨"arr", by decide +kernel⟩
    let updated : KqueryVersion := .updated (.cons zero zero .nil) arr
    let n0 : Identifier := ⟨"N0", by decide +kernel⟩
    let u0 : Identifier := ⟨"U0", by decide +kernel⟩
    let typed : KqueryExpr := .numberWithType "w8" .zero
    let read : KqueryVersion → KqueryExpr := .read "w8" zero
    ∀ e ∈ [KqueryExpr.comparison .eq none (.definition n0 (read updated)) (.identifier n0),
      .comparison .eq none (read (.definition u0 (.version (.cons zero zero .nil) arr))) (read (.name u0)),
      .bv .concat (some "w16") typed (.bitwise .and (some "w8") (.definition n0 (read updated)) (.identifier n0)),
      .arithmetic .add "w16" (.definition n0 (.bv .concat (some "w16") typed (read arr))) (.identifier n0)],
      e.outcome [] ≠ (e.inline true .empty).1.outcome [] := by
  intro zero arr updated n0 u0 typed read e he hsame
  replace hsame := congrArg (Option.map RoseTree.labels) hsame
  simp only [List.mem_cons, List.not_mem_nil, or_false] at he
  rcases he with rfl | rfl | rfl | rfl
  · exact absurd hsame (by decide +kernel)
  · exact absurd hsame (by decide +kernel)
  · exact absurd hsame (by decide +kernel)
  · exact absurd hsame (by decide +kernel)

end Assure
