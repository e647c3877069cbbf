import Assure.Comparison.CanonicalForm
import Assure.Comparison.KqueryOutline
import Assure.Library.Collections

/-!
# Canonicalizing a graph

`canonicalize_graph` rewrites the tree in a dot file. The operands of a node are its successors in the
order of their ids, so an `IdTree` has its children in that order, and a change puts them in order again
(`withKids`). One pass of the loop rewrites the first node it can in the order of the graph's nodes,
which is any of them: `pick` says which.

A step puts a lifted operand among siblings whose ids it was not compared with. Where its id is between
theirs (`InPlace`) the operands stay in order and the step is one of `Rewrites` (`InPlace.read`). Two runs of
such steps end with the same expression (`canonicalizeGraph_confluent`).

That the passes end, and that no rewriting is possible where they end, is proved for every tree and
every `pick` (`canonicalizeGraph_spec`). That the value is kept is proved for runs whose steps are
all in place, and only for expressions that have a value. That two runs end alike needs, besides,
that negations on top of each other are spelled alike. Nothing is said about runs with a misplaced
step, except that one of them changes the value.
-/

namespace Assure

open Assure.Library

/-- **A node of the graph.** -/
structure IdNode where
  id : Nat
  node : KqueryNode
  deriving DecidableEq

/-- **A graph that is a tree**, the children in the order of their ids. -/
abbrev IdTree := RoseTree IdNode

namespace IdTree

/-- The id of the root. -/
def rootId (t : IdTree) : Nat := RoseTree.label t |>.id

/-- All ids. -/
def ids (t : IdTree) : List Nat := t.labels.map IdNode.id

/-- The number of nodes. -/
def size (t : IdTree) : Nat := t.labels.length

/-- **The expression**, operands in the order of their ids. -/
def read (t : IdTree) : Kquery := t.map IdNode.node

/-- The tree with another id at the root. -/
def withId (i : Nat) (t : IdTree) : IdTree := t.mapRoot fun a => { a with id := i }

end IdTree

/-- **`_kids`**: a node over its successors. -/
def withKids (a : IdNode) (kids : List IdTree) : IdTree := .node a (sortedBy IdTree.rootId kids)

/-! ## The loop -/

/-- The label of a node. -/
def IdNode.label (a : IdNode) : String := a.node.label

/-- Rule 1: the condition without its negation, and the ids of the arms exchanged. -/
def rewriteSelect : IdTree → Option IdTree
  | .node a [cond, t, f] =>
    if a.label = "Select" then
      (isNot IdNode.label cond).map fun c =>
        withKids a [IdTree.withId (IdTree.rootId f) t, IdTree.withId (IdTree.rootId t) f, c]
    else none
  | _ => none

/-- Rule 2, or rule 1. -/
def rewriteNode (t : IdTree) : Option IdTree := (doubleNot IdNode.label t).or (rewriteSelect t)

mutual

/-- **What one pass can make of the tree.** -/
def rewrites : IdTree → List IdTree
  | .node a kids => (rewriteNode (.node a kids)).toList ++ (rewritesAll kids).map (withKids a)

/-- The same for one of several trees. -/
def rewritesAll : List IdTree → List (List IdTree)
  | [] => []
  | kid :: kids => (rewrites kid).map (· :: kids) ++ (rewritesAll kids).map (kid :: ·)

end

/-- One pass, with the choice of `pick`. -/
def canonicalizePass (pick : IdTree → Nat) (t : IdTree) : Option IdTree :=
  (rewrites t)[pick t % (rewrites t).length]?

/-- The trees that the passes give, up to a number of passes. -/
def canonicalizePasses (pick : IdTree → Nat) : Nat → IdTree → List IdTree
  | 0, t => [t]
  | n + 1, t =>
    match canonicalizePass pick t with
    | none => [t]
    | some t' => t :: canonicalizePasses pick n t'

/-- **The trees on the way** of `canonicalize_graph`: there are no more passes than nodes. -/
def canonicalizeTrace (pick : IdTree → Nat) (t : IdTree) : List IdTree :=
  canonicalizePasses pick (IdTree.size t) t

/-- **`canonicalize_graph`** -/
def canonicalizeGraph (pick : IdTree → Nat) (t : IdTree) : IdTree :=
  (canonicalizeTrace pick t).getLast?.getD t

/-! ## Operand order -/

/-- The operands are in the order of their ids. -/
inductive Ordered : IdTree → Prop
  | node {a : IdNode} {kids : List IdTree}
    (h : kids.Pairwise fun c d => IdTree.rootId c < IdTree.rootId d) (hkids : ∀ c ∈ kids, Ordered c) :
    Ordered (.node a kids)

/-- **Operand order is the order of node ids**, which are different. -/
structure OperandOrder (t : IdTree) : Prop where
  ordered : Ordered t
  nodup : (IdTree.ids t).Nodup

/-- **A change that keeps operands in their places**: what it lifts has an id between those of its new
siblings, and a double negation is only taken away where `Q` holds. -/
inductive InPlace (Q : Kquery → Kquery → Prop) : IdTree → IdTree → Prop
  | doubleNot {t x : IdTree} (h : doubleNot IdNode.label t = some x)
    (hQ : Q (IdTree.read t) (IdTree.read x)) : InPlace Q t x
  | select {a : IdNode} {cond c x y : IdTree} (ha : a.label = "Select")
    (h : isNot IdNode.label cond = some c) (hc : IdTree.rootId c < IdTree.rootId x) :
    InPlace Q (.node a [cond, x, y])
      (withKids a [IdTree.withId (IdTree.rootId y) x, IdTree.withId (IdTree.rootId x) y, c])
  | kid {a : IdNode} {l r : List IdTree} {c c' : IdTree} (h : InPlace Q c c')
    (hl : ∀ d ∈ l, IdTree.rootId d < IdTree.rootId c')
    (hr : ∀ d ∈ r, IdTree.rootId c' < IdTree.rootId d) :
    InPlace Q (.node a (l ++ c :: r)) (withKids a (l ++ c' :: r))

/-- Renumbering the root gives it the number asked for. -/
@[simp] theorem rootId_withId (i : Nat) (t : IdTree) : IdTree.rootId (IdTree.withId i t) = i := by
  rw [IdTree.rootId, IdTree.withId, RoseTree.label_mapRoot]

/-- Numbers are not part of what is read, so renumbering the root leaves the expression. -/
@[simp] theorem read_withId (i : Nat) (t : IdTree) :
    IdTree.read (IdTree.withId i t) = IdTree.read t :=
  RoseTree.map_mapRoot (f := fun a : IdNode => ⟨i, a.node⟩) (fun _ => rfl) t

/-- Reading a numbered tree goes through its operands in the order in which they stand. -/
theorem read_node (a : IdNode) (kids : List IdTree) :
    IdTree.read (.node a kids) = .node a.node (kids.map IdTree.read) :=
  RoseTree.map_node _ _ _

/-- Whether operands stand in the order of their numbers does not depend on the number of the node
above them. -/
theorem Ordered.withId {t : IdTree} (h : Ordered t) (i : Nat) : Ordered (IdTree.withId i t) := by
  cases h with
  | node h hkids => exact .node h hkids

/-- Operands in order stay where they are. -/
theorem withKids_eq {a : IdNode} {kids kids' : List IdTree} (hperm : kids.Perm kids')
    (h : kids'.Pairwise fun c d => IdTree.rootId c < IdTree.rootId d) :
    withKids a kids = .node a kids' := by
  rw [withKids, sortedBy_eq_of_perm hperm h]

/-- A negation among numbered nodes is a negation among the expressions read off them, and negates
the same operand. -/
theorem isNot_read (t : IdTree) :
    isNot KqueryNode.label (IdTree.read t) = (isNot IdNode.label t).map IdTree.read :=
  isNot_map (fun _ => rfl) t

/-- The same for two negations on top of each other. -/
theorem doubleNot_read (t : IdTree) :
    doubleNot KqueryNode.label (IdTree.read t) = (doubleNot IdNode.label t).map IdTree.read := by
  rw [doubleNot, doubleNot, isNot_read, Option.bind_map, Option.map_bind]
  exact congrArg _ (funext isNot_read)

/-- What is negated is a part of the tree, so it is in order where the tree is. -/
theorem Ordered.isNot {t x : IdTree} (ht : Ordered t) (h : isNot IdNode.label t = some x) :
    Ordered x := by
  obtain ⟨a, f, -, -, rfl | rfl⟩ := isNot_eq_some h
  · cases ht with
    | node _ hkids => exact hkids x (by simp)
  · cases ht with
    | node _ hkids => exact hkids x (by simp)

/-- The arms change places. -/
theorem withKids_select (a : IdNode) {c x y : IdTree} (hc : IdTree.rootId c < IdTree.rootId x)
    (hxy : IdTree.rootId x < IdTree.rootId y) :
    ∃ kids, kids.Pairwise (fun c d => IdTree.rootId c < IdTree.rootId d) ∧
      kids = [c, IdTree.withId (IdTree.rootId x) y, IdTree.withId (IdTree.rootId y) x] ∧
      withKids a [IdTree.withId (IdTree.rootId y) x, IdTree.withId (IdTree.rootId x) y, c] =
        .node a kids := by
  have hpairwise : [c, IdTree.withId (IdTree.rootId x) y, IdTree.withId (IdTree.rootId y) x].Pairwise
      fun c d => IdTree.rootId c < IdTree.rootId d := by
    refine List.pairwise_cons.mpr ⟨?_, List.pairwise_pair.mpr ?_⟩
    · intro d hd
      rcases List.mem_pair.mp hd with rfl | rfl
      · rwa [rootId_withId]
      · rw [rootId_withId]
        exact hc.trans hxy
    · rw [rootId_withId, rootId_withId]
      exact hxy
  exact ⟨_, hpairwise, rfl, withKids_eq (List.reverse_perm [_, _, _]).symm hpairwise⟩

variable {Q : Kquery → Kquery → Prop}

/-- **Operands in their places stay in order**, and the step is a rewriting of the expression. -/
theorem InPlace.read {t t' : IdTree} (h : InPlace Q t t') (ht : Ordered t) :
    Ordered t' ∧ Rewrites Q (IdTree.read t) (IdTree.read t') := by
  induction h with
  | doubleNot h hQ =>
    obtain ⟨inner, hinner, hx⟩ := Option.bind_eq_some_iff.mp h
    exact ⟨(ht.isNot hinner).isNot hx, .doubleNot (by rw [doubleNot_read, h]; rfl) hQ⟩
  | @select a cond c x y ha h hc =>
    cases ht with
    | node hids hkids =>
      have hxy : IdTree.rootId x < IdTree.rootId y := by
        rw [List.pairwise_cons, List.pairwise_pair] at hids
        exact hids.2
      obtain ⟨kids, hpairwise, hkidsEq, hnode⟩ := withKids_select a hc hxy
      rw [hnode]
      refine ⟨.node hpairwise ?_, ?_⟩
      · intro d hd
        rw [hkidsEq, List.mem_cons, List.mem_pair] at hd
        rcases hd with rfl | rfl | rfl
        · exact (hkids cond (by simp)).isNot h
        · exact (hkids y (by simp)).withId _
        · exact (hkids x (by simp)).withId _
      · have hnot : isNot KqueryNode.label (IdTree.read cond) = some (IdTree.read c) := by
          rw [isNot_read, h]
          rfl
        have harms : kids.map IdTree.read = [IdTree.read c, IdTree.read y, IdTree.read x] := by
          rw [hkidsEq, List.map_cons, List.map_cons, List.map_cons, List.map_nil, read_withId,
            read_withId]
        rw [read_node, read_node, harms]
        exact .select ha hnot
  | @kid a l r c c' h hl hr ih =>
    cases ht with
    | node hids hkids =>
      obtain ⟨hc', hread⟩ := ih (hkids c (by simp))
      have hpairwise : (l ++ c' :: r).Pairwise fun c d => IdTree.rootId c < IdTree.rootId d := by
        rw [List.pairwise_append, List.pairwise_cons] at hids ⊢
        obtain ⟨hleft, ⟨-, hright⟩, hboth⟩ := hids
        refine ⟨hleft, ⟨hr, hright⟩, ?_⟩
        intro d hd e he
        rcases List.mem_cons.mp he with rfl | he
        · exact hl d hd
        · exact hboth d hd e (List.mem_cons_of_mem _ he)
      rw [withKids_eq (List.Perm.refl _) hpairwise]
      refine ⟨.node hpairwise ?_, ?_⟩
      · intro d hd
        rw [List.mem_append, List.mem_cons] at hd
        rcases hd with hd | rfl | hd
        · exact hkids d (by simp [hd])
        · exact hc'
        · exact hkids d (by simp [hd])
      · rw [read_node, read_node, List.map_append, List.map_append]
        exact .operand hread

/-! ## Ids -/

/-- The numbers of a tree are that of its root and those of its operands. -/
theorem ids_node (a : IdNode) (kids : List IdTree) :
    IdTree.ids (.node a kids) = a.id :: kids.flatMap IdTree.ids := by
  rw [IdTree.ids, RoseTree.labels_node, List.map_cons, List.map_flatMap]
  rfl

/-- Putting the operands in the order of their numbers rearranges the numbers of the tree and loses
none. -/
theorem ids_withKids (a : IdNode) (kids : List IdTree) :
    (IdTree.ids (withKids a kids)).Perm (a.id :: kids.flatMap IdTree.ids) := by
  rw [withKids, ids_node]
  exact ((sortedBy_perm _ _).flatMap_right _).cons _

/-- Taking a negation off drops the number of the negation at least, and keeps the others in order.
-/
theorem ids_isNot {t x : IdTree} (h : isNot IdNode.label t = some x) :
    ∃ i, (i :: IdTree.ids x).Sublist (IdTree.ids t) := by
  obtain ⟨a, f, -, -, rfl | rfl⟩ := isNot_eq_some h
  · refine ⟨a.id, ?_⟩
    rw [ids_node]
    simp
  · refine ⟨a.id, ?_⟩
    rw [ids_node]
    simp

/-- Two trees with their ids exchanged. -/
theorem ids_swap (x y : IdTree) :
    (IdTree.ids (IdTree.withId (IdTree.rootId y) x) ++ IdTree.ids (IdTree.withId (IdTree.rootId x) y)).Perm
      (IdTree.ids x ++ IdTree.ids y) := by
  obtain ⟨a, xs⟩ := x
  obtain ⟨b, ys⟩ := y
  show (IdTree.ids (.node ⟨b.id, a.node⟩ xs) ++ IdTree.ids (.node ⟨a.id, b.node⟩ ys)).Perm _
  rw [ids_node, ids_node, ids_node, ids_node]
  calc
    List.Perm (b.id :: (xs.flatMap IdTree.ids ++ a.id :: ys.flatMap IdTree.ids))
        (b.id :: a.id :: (xs.flatMap IdTree.ids ++ ys.flatMap IdTree.ids)) :=
      List.perm_middle.cons _
    List.Perm _ (a.id :: b.id :: (xs.flatMap IdTree.ids ++ ys.flatMap IdTree.ids)) := .swap _ _ _
    List.Perm _ (a.id :: (xs.flatMap IdTree.ids ++ b.id :: ys.flatMap IdTree.ids)) :=
      List.perm_middle.symm.cons _

/-- The ids of a `Select`, with its arms exchanged. -/
theorem ids_select (a : IdNode) (c x y : IdTree) :
    (IdTree.ids (withKids a
        [IdTree.withId (IdTree.rootId y) x, IdTree.withId (IdTree.rootId x) y, c])).Perm
      (a.id :: (IdTree.ids c ++ (IdTree.ids x ++ IdTree.ids y))) := by
  refine (ids_withKids _ _).trans (.cons _ ?_)
  rw [List.flatMap_cons, List.flatMap_cons, List.flatMap_singleton, ← List.append_assoc]
  exact List.perm_append_comm.trans ((ids_swap x y).append_left _)

/-- **The ids after a rewriting are some of those before it.** -/
theorem ids_rewriteNode {t t' : IdTree} (h : rewriteNode t = some t') :
    ∃ i, (i :: IdTree.ids t').Subperm (IdTree.ids t) := by
  rcases Option.or_eq_some_iff.mp h with hnot | ⟨-, hselect⟩
  · obtain ⟨inner, hinner, hx⟩ := Option.bind_eq_some_iff.mp hnot
    obtain ⟨i, hi⟩ := ids_isNot hx
    obtain ⟨j, hj⟩ := ids_isNot hinner
    exact ⟨i, (hi.trans ((List.sublist_cons_self _ _).trans hj)).subperm⟩
  · unfold rewriteSelect at hselect
    split at hselect
    · rename_i a cond x y
      split at hselect
      · obtain ⟨c, hc, rfl⟩ := Option.map_eq_some_iff.mp hselect
        obtain ⟨i, hi⟩ := ids_isNot hc
        refine ⟨i, ((ids_select a c x y).cons i).subperm.trans ?_⟩
        rw [ids_node, List.flatMap_cons, List.flatMap_cons, List.flatMap_singleton]
        exact (List.Perm.swap _ _ _).subperm.trans ((hi.append_right _).cons_cons _).subperm
      · cases hselect
    · cases hselect

/-- A step among the operands is a step in one of them, and leaves those before and behind it as
they are. -/
theorem mem_rewritesAll {kids kids' : List IdTree} (h : kids' ∈ rewritesAll kids) :
    ∃ l c r c', kids = l ++ c :: r ∧ c' ∈ rewrites c ∧ kids' = l ++ c' :: r := by
  induction kids generalizing kids' with
  | nil => cases h
  | cons kid kids ih =>
    rw [rewritesAll, List.mem_append, List.mem_map, List.mem_map] at h
    rcases h with ⟨c', hc', rfl⟩ | ⟨kids', hkids', rfl⟩
    · exact ⟨[], kid, kids, c', rfl, hc', rfl⟩
    · obtain ⟨l, c, r, c', rfl, hc', rfl⟩ := ih hkids'
      exact ⟨kid :: l, c, r, c', rfl, hc', rfl⟩

/-- **A rewriting is made at a node**, of the tree or of a child. -/
theorem rewrites_induct {P : IdTree → IdTree → Prop}
    (node : ∀ t t', rewriteNode t = some t' → P t t')
    (kid : ∀ a l r c c', P c c' → P (.node a (l ++ c :: r)) (withKids a (l ++ c' :: r))) :
    ∀ t t', t' ∈ rewrites t → P t t' := by
  intro t
  induction t using RoseTree.induct with
  | h a kids ih =>
    intro t' h
    rw [rewrites, List.mem_append, Option.mem_toList, List.mem_map] at h
    rcases h with h | ⟨kids', hkids', rfl⟩
    · exact node _ _ h
    · obtain ⟨l, c, r, c', rfl, hc', rfl⟩ := mem_rewritesAll hkids'
      exact kid a l r c c' (ih c (by simp) c' hc')

/-- Every step drops a number and brings in no new one. This is what bounds the passes and keeps the
numbers distinct. -/
theorem ids_rewrites {t t' : IdTree} (h : t' ∈ rewrites t) :
    ∃ i, (i :: IdTree.ids t').Subperm (IdTree.ids t) := by
  refine rewrites_induct (P := fun t t' => ∃ i, (i :: IdTree.ids t').Subperm (IdTree.ids t))
    (fun _ _ => ids_rewriteNode) ?_ t t' h
  rintro a l r c c' ⟨i, hi⟩
  refine ⟨i, ((ids_withKids _ _).cons i).subperm.trans ?_⟩
  rw [ids_node, List.flatMap_append, List.flatMap_append, List.flatMap_cons, List.flatMap_cons]
  refine (List.Perm.swap _ _ _).subperm.trans ((List.subperm_cons _).mpr ?_)
  exact List.perm_middle.symm.subperm.trans ((List.Subperm.refl _).append (hi.append (.refl _)))

/-- **Every rewriting leaves fewer nodes.** -/
theorem size_rewrites {t t' : IdTree} (h : t' ∈ rewrites t) : IdTree.size t' < IdTree.size t := by
  obtain ⟨i, hi⟩ := ids_rewrites h
  have hlength := hi.length_le
  rwa [List.length_cons, IdTree.ids, IdTree.ids, List.length_map, List.length_map] at hlength

/-! ## Runs -/

/-- Whatever a pass makes of the tree is one of the steps possible in it. -/
theorem canonicalizePass_eq_some {pick : IdTree → Nat} {t t' : IdTree}
    (h : canonicalizePass pick t = some t') : t' ∈ rewrites t :=
  List.mem_of_getElem? h

/-- A pass that changes nothing leaves a tree in which no step is possible, because it looks at
every node. -/
theorem canonicalizePass_eq_none {pick : IdTree → Nat} {t : IdTree}
    (h : canonicalizePass pick t = none) : rewrites t = [] := by
  rw [canonicalizePass, List.getElem?_eq_none_iff] at h
  by_contra hne
  exact absurd (Nat.mod_lt (pick t) (List.length_pos_of_ne_nil hne)) (by omega)

/-- The trace of the passes begins with the tree itself. -/
theorem canonicalizePasses_eq_cons (pick : IdTree → Nat) (n : Nat) (t : IdTree) :
    ∃ rest, canonicalizePasses pick n t = t :: rest := by
  cases n with
  | zero => exact ⟨[], rfl⟩
  | succ n =>
    rw [canonicalizePasses]
    split
    · exact ⟨[], rfl⟩
    · exact ⟨_, rfl⟩

/-- Each tree on the way is a rewriting of the one before. -/
theorem canonicalizePasses_isChain (pick : IdTree → Nat) (n : Nat) (t : IdTree) :
    (canonicalizePasses pick n t).IsChain fun s s' => s' ∈ rewrites s := by
  induction n generalizing t with
  | zero => exact .singleton t
  | succ n ih =>
    rw [canonicalizePasses]
    split
    · exact .singleton t
    · rename_i t' ht'
      obtain ⟨rest, hrest⟩ := canonicalizePasses_eq_cons pick n t'
      have hchain := ih t'
      rw [hrest] at hchain ⊢
      exact .cons_cons (canonicalizePass_eq_some ht') hchain

/-- **What a chain of steps reaches.** -/
theorem reflTransGen_of_mem {R : IdTree → IdTree → Prop} {pick : IdTree → Nat} {n : Nat} {t s : IdTree}
    (h : (canonicalizePasses pick n t).IsChain R) (hs : s ∈ canonicalizePasses pick n t) :
    Relation.ReflTransGen R t s := by
  obtain ⟨rest, hrest⟩ := canonicalizePasses_eq_cons pick n t
  rw [hrest] at h hs
  clear hrest
  induction rest generalizing t with
  | nil =>
    obtain rfl := List.mem_singleton.mp hs
    exact .refl
  | cons t' rest ih =>
    obtain ⟨hstep, hrest⟩ := List.isChain_cons_cons.mp h
    rcases List.mem_cons.mp hs with rfl | hs
    · exact .refl
    · exact (ih hs hrest).head hstep

/-- **Nothing is left to rewrite** after as many passes as there are nodes. -/
theorem canonicalizePasses_last (pick : IdTree → Nat) (n : Nat) (t : IdTree)
    (hn : IdTree.size t ≤ n) :
    ∃ s ∈ canonicalizePasses pick n t,
      (canonicalizePasses pick n t).getLast? = some s ∧ rewrites s = [] := by
  induction n generalizing t with
  | zero =>
    obtain ⟨a, kids⟩ := t
    rw [IdTree.size, RoseTree.labels_node] at hn
    cases hn
  | succ n ih =>
    rw [canonicalizePasses]
    split
    · rename_i hnone
      exact ⟨t, List.mem_singleton_self t, rfl, canonicalizePass_eq_none hnone⟩
    · rename_i t' ht'
      have hsize := size_rewrites (canonicalizePass_eq_some ht')
      obtain ⟨s, hmem, hlast, hs⟩ := ih t' (by omega)
      obtain ⟨rest, hrest⟩ := canonicalizePasses_eq_cons pick n t'
      refine ⟨s, List.mem_cons_of_mem _ hmem, ?_, hs⟩
      rw [hrest] at hlast ⊢
      rwa [List.getLast?_cons_cons]

/-- The loop ends at the last tree of its trace, and in that one no step is possible: the bound on
the passes is never what stops it. -/
theorem canonicalizeGraph_spec (pick : IdTree → Nat) (t : IdTree) :
    canonicalizeGraph pick t ∈ canonicalizeTrace pick t ∧
      rewrites (canonicalizeGraph pick t) = [] := by
  obtain ⟨s, hmem, hlast, hs⟩ := canonicalizePasses_last pick _ t (Nat.le_refl _)
  have heq : canonicalizeGraph pick t = s := by
    rw [canonicalizeGraph, canonicalizeTrace, hlast]
    rfl
  rw [heq]
  exact ⟨hmem, hs⟩

/-- Where the pass finds no selection to turn round, there is none among the expressions either. -/
theorem swapArms_read {t : IdTree} (h : rewriteSelect t = none) : swapArms (IdTree.read t) = none := by
  obtain ⟨a, kids⟩ := t
  rw [read_node]
  rcases kids with _ | ⟨cond, _ | ⟨x, _ | ⟨y, _ | _⟩⟩⟩
  · rfl
  · rfl
  · rfl
  · show (if a.label = "Select" then _ else none) = none
    rw [rewriteSelect] at h
    split at h
    · rename_i ha
      rw [if_pos ha, isNot_read, Option.map_eq_none_iff.mp h]
      rfl
    · rename_i ha
      exact if_neg ha
  · rfl

/-- If no step is possible among the operands together, none is possible in any of them. -/
theorem rewritesAll_eq_nil {kids : List IdTree} (h : rewritesAll kids = []) :
    ∀ c ∈ kids, rewrites c = [] := by
  induction kids with
  | nil => exact nofun
  | cons kid kids ih =>
    rw [rewritesAll, List.append_eq_nil_iff, List.map_eq_nil_iff, List.map_eq_nil_iff] at h
    intro c hc
    rcases List.mem_cons.mp hc with rfl | hc
    · exact h.1
    · exact ih h.2 c hc

/-- A tree that no pass can change. -/
theorem irreducible_of_rewrites {t : IdTree} (h : rewrites t = []) : Irreducible (IdTree.read t) := by
  induction t using RoseTree.induct with
  | h a kids ih =>
    rw [rewrites, List.append_eq_nil_iff, List.map_eq_nil_iff, Option.toList_eq_nil_iff] at h
    obtain ⟨hnode, hkids⟩ := h
    obtain ⟨hnot, hselect⟩ := Option.or_eq_none_iff.mp hnode
    have hredex : redex (IdTree.read (.node a kids)) = none := by
      rw [redex, doubleNot_read, hnot, swapArms_read hselect]
      rfl
    rw [read_node] at hredex ⊢
    refine .node hredex ?_
    intro c hc
    obtain ⟨d, hd, rfl⟩ := List.mem_map.mp hc
    exact ih d hd (rewritesAll_eq_nil hkids d hd)

/-! ## What is kept -/

/-- A run of the loop whose steps are all in place keeps the order of the operands and is, read as
expressions, a run of the same steps. -/
theorem Ordered.steps {t s : IdTree} (ht : Ordered t) (h : Relation.ReflTransGen (InPlace Q) t s) :
    Ordered s ∧ Relation.ReflTransGen (Rewrites Q) (IdTree.read t) (IdTree.read s) := by
  induction h with
  | refl => exact ⟨ht, .refl⟩
  | tail _ hstep ih =>
    obtain ⟨hordered, hread⟩ := hstep.read ih.1
    exact ⟨hordered, ih.2.tail hread⟩

/-- Distinct numbers stay distinct through any number of steps. -/
theorem ids_nodup {t s : IdTree} (ht : (IdTree.ids t).Nodup)
    (h : Relation.ReflTransGen (fun s s' => s' ∈ rewrites s) t s) : (IdTree.ids s).Nodup := by
  induction h with
  | refl => exact ht
  | tail _ hstep ih =>
    obtain ⟨i, hi⟩ := ids_rewrites hstep
    obtain ⟨l, hperm, hsublist⟩ := List.Subperm.cons_self.trans hi
    exact hperm.nodup_iff.mp (ih.sublist hsublist)

/-- **Operands stay in order** in a run whose steps keep them in their places. -/
theorem OperandOrder.run {pick : IdTree → Nat} {t : IdTree} (ht : OperandOrder t)
    (hrun : (canonicalizeTrace pick t).IsChain (InPlace Q)) :
    ∀ s ∈ canonicalizeTrace pick t, OperandOrder s ∧
      Relation.ReflTransGen (Rewrites Q) (IdTree.read t) (IdTree.read s) := by
  intro s hs
  obtain ⟨hordered, hread⟩ := ht.ordered.steps (reflTransGen_of_mem hrun hs)
  have hids := ids_nodup ht.nodup (reflTransGen_of_mem (canonicalizePasses_isChain pick _ t) hs)
  exact ⟨⟨hordered, hids⟩, hread⟩

/-- A node as it is written to the dot file and read from it. -/
def GraphNode.written (node : GraphNode) : IdNode :=
  ⟨node.nodeId, ⟨node.value, if node.type = "" then none else some node.type⟩⟩

/-- Writing the nodes of a graph out keeps the number of its root. -/
theorem rootId_written (u : RoseTree GraphNode) :
    IdTree.rootId (u.map GraphNode.written) = u.label.nodeId := by
  rw [IdTree.rootId, RoseTree.label_map]
  rfl

/-- **The grapher's numbers are in the order of the operands.** -/
theorem operandOrder_of_numbered {first : GraphNode → Prop} {lo hi : Nat} {u : RoseTree GraphNode}
    (h : u.Numbered GraphNode.nodeId first lo hi) : OperandOrder (u.map GraphNode.written) where
  ordered := by
    induction u using RoseTree.induct generalizing lo hi with
    | h node us ih =>
      obtain ⟨_, _, hus⟩ := h.children
      rw [RoseTree.map_node]
      refine .node (List.pairwise_map.mpr ?_) ?_
      · refine hus.pairwise.imp ?_
        intro c d hcd
        rw [rootId_written, rootId_written]
        exact hcd _ c.label_mem_labels _ d.label_mem_labels
      · intro c hc
        obtain ⟨v, hv, rfl⟩ := List.mem_map.mp hc
        obtain ⟨_, _, hnum⟩ := hus.of_mem hv
        exact ih v hv hnum
  nodup := by
    rw [IdTree.ids, RoseTree.labels_map, List.map_map]
    exact h.nodup

/-- **The value and the order of operands are kept** by every run of `canonicalize_graph` whose steps keep
operands in their places. -/
theorem canonicalizeGraph_eval (pick : IdTree → Nat) (t : IdTree) (ht : OperandOrder t)
    (hrun : (canonicalizeTrace pick t).IsChain (InPlace fun _ _ => True)) :
    canonicalizeGraph pick t ∈ canonicalizeTrace pick t ∧
      ∀ s ∈ canonicalizeTrace pick t, OperandOrder s ∧
        Relation.ReflTransGen (Rewrites fun _ _ => True) (IdTree.read t) (IdTree.read s) ∧
          ∀ env, (IdTree.read t).eval env ≠ .invalid →
            (IdTree.read s).eval env = (IdTree.read t).eval env := by
  refine ⟨(canonicalizeGraph_spec pick t).1, ?_⟩
  intro s hs
  obtain ⟨horder, hread⟩ := ht.run hrun s hs
  exact ⟨horder, hread, fun env hvalid => eval_eq_of_rewrites hread hvalid⟩

/-- A leaf with an id. -/
def idLeaf (i : Nat) (label : String) : IdTree := .node ⟨i, ⟨label, none⟩⟩ []

/-- A negation with an id, of a node with the second id after it. -/
def idNot (i : Nat) (t : IdTree) : IdTree := .node ⟨i, ⟨"Eq", none⟩⟩ [idLeaf (i + 1) "false", t]

/-- A `Select` with the first id. -/
def idSelect (cond x y : IdTree) : IdTree := .node ⟨1, ⟨"Select", some "w1"⟩⟩ [cond, x, y]

/-- A leaf has no operands that could be out of order. -/
theorem ordered_leaf (i : Nat) (label : String) : Ordered (idLeaf i label) :=
  .node .nil nofun

/-- A negation is in order if what it negates is and its own operands were numbered in the order
they stand in. -/
theorem Ordered.not {i : Nat} {t : IdTree} (h : Ordered t) (hi : i + 1 < IdTree.rootId t) :
    Ordered (idNot i t) := by
  refine .node (List.pairwise_pair.mpr hi) ?_
  intro c hc
  rcases List.mem_pair.mp hc with rfl | rfl
  · exact ordered_leaf _ _
  · exact h

/-- A selection is in order if its three operands are and are numbered from left to right. -/
theorem Ordered.select {cond x y : IdTree} (hcond : Ordered cond) (hx : Ordered x) (hy : Ordered y)
    (h : [cond, x, y].Pairwise fun c d => IdTree.rootId c < IdTree.rootId d) :
    Ordered (idSelect cond x y) := by
  refine .node h ?_
  intro c hc
  rw [List.mem_cons, List.mem_pair] at hc
  rcases hc with rfl | rfl | rfl
  · exact hcond
  · exact hx
  · exact hy

/-- A condition negated twice: the arms change places and change back. -/
theorem canonicalizeGraph_eval_select :
    let t := idSelect (idNot 2 (idNot 4 (idLeaf 6 "true"))) (idLeaf 7 "false") (idLeaf 8 "true")
    let pick := fun _ => 0
    (canonicalizeTrace pick t).length = 3 ∧ ∀ env,
      (IdTree.read (canonicalizeGraph pick t)).eval env = (IdTree.read t).eval env := by
  intro t pick
  have hcond : Ordered (idNot 2 (idNot 4 (idLeaf 6 "true"))) :=
    ((ordered_leaf _ _).not (by decide)).not (by decide)
  have horder : OperandOrder t :=
    ⟨hcond.select (ordered_leaf _ _) (ordered_leaf _ _) (by decide), by decide⟩
  have hrun : (canonicalizeTrace pick t).IsChain (InPlace fun _ _ => True) := by
    refine .cons_cons ?_ (.cons_cons ?_ (.singleton _))
    · exact .select rfl rfl (by decide)
    · exact .select (c := idLeaf 6 "true") (x := idLeaf 7 "true") (y := idLeaf 8 "false") rfl rfl
        (by decide)
  obtain ⟨hmem, hall⟩ := canonicalizeGraph_eval pick t horder hrun
  exact ⟨rfl, fun env => (hall _ hmem).2.2 env nofun⟩

/-- `(Select w1 (Eq false true) false (Eq false (Eq false true)))`: the arms change places, and the
negations in front of the arm that is now the first one leave it with an id after the other's. -/
def negatedArm : KqueryExpr :=
  .select "w1" (.comparison .eq none (.number (.bit false)) (.number (.bit true))) (.number (.bit false))
    (.comparison .eq none (.number (.bit false))
      (.comparison .eq none (.number (.bit false)) (.number (.bit true))))

/-- The graph of `negatedArm`. -/
def negatedArmGraph : IdTree :=
  idSelect (idNot 2 (idLeaf 4 "true")) (idLeaf 5 "false") (idNot 6 (idNot 8 (idLeaf 10 "true")))

/-- What the visitor makes of the selection whose arm is negated, with the numbers it gives out. -/
theorem negatedArm_graph :
    ((visitExpr [] negatedArm .fresh).map fun r => r.1.map (Option.map GraphNode.written)) =
      some (negatedArmGraph.map some) := rfl

/-- The graph that the visitor makes is in order, so the misplacing comes from a step of the loop
and not from the visit. -/
theorem negatedArm_operandOrder : OperandOrder negatedArmGraph := by
  have hcond : Ordered (idNot 2 (idLeaf 4 "true")) := (ordered_leaf _ _).not (by decide)
  have harm : Ordered (idNot 6 (idNot 8 (idLeaf 10 "true"))) :=
    ((ordered_leaf _ _).not (by decide)).not (by decide)
  exact ⟨hcond.select (ordered_leaf _ _) harm (by decide), by decide⟩

/-- **The other arm is chosen.** -/
theorem canonicalizeGraph_eval_ne :
    ∃ e t pick, ((visitExpr [] e .fresh).map fun r => r.1.map (Option.map GraphNode.written)) =
        some (t.map some) ∧ OperandOrder t ∧ ∀ env,
      (IdTree.read t).eval env = .bits 1 1#1 ∧
        (IdTree.read (canonicalizeGraph pick t)).eval env = .bits 1 0#1 :=
  ⟨negatedArm, negatedArmGraph, fun _ => 0, negatedArm_graph, negatedArm_operandOrder,
    fun _ => ⟨rfl, rfl⟩⟩

/-! ## Confluence -/

/-- **`canonicalize_graph` ends with nothing left to rewrite**, and runs that keep operands in their
places, and negations as they are spelled, end with the same expression. -/
theorem canonicalizeGraph_confluent (t : IdTree) :
    (∀ pick, rewrites (canonicalizeGraph pick t) = [] ∧
      Irreducible (IdTree.read (canonicalizeGraph pick t))) ∧
    (OperandOrder t → Constants (IdTree.read t) →
      ∀ pick pick', (canonicalizeTrace pick t).IsChain (InPlace SpelledAlike) →
        (canonicalizeTrace pick' t).IsChain (InPlace SpelledAlike) →
          IdTree.read (canonicalizeGraph pick t) = IdTree.read (canonicalizeGraph pick' t) ∧
            IdTree.read (canonicalizeGraph pick t) = (IdTree.read t).canonical) := by
  have hend : ∀ pick, Irreducible (IdTree.read (canonicalizeGraph pick t)) :=
    fun pick => irreducible_of_rewrites (canonicalizeGraph_spec pick t).2
  refine ⟨fun pick => ⟨(canonicalizeGraph_spec pick t).2, hend pick⟩, ?_⟩
  intro ht hconstants
  have hcanonical : ∀ pick, (canonicalizeTrace pick t).IsChain (InPlace SpelledAlike) →
      IdTree.read (canonicalizeGraph pick t) = (IdTree.read t).canonical := by
    intro pick hrun
    obtain ⟨-, hread⟩ := ht.run hrun _ (canonicalizeGraph_spec pick t).1
    rw [(canonical_eq_of_rewrites hread hconstants).1, (hend pick).canonical_eq]
  intro pick pick' hrun hrun'
  exact ⟨(hcanonical pick hrun).trans (hcanonical pick' hrun').symm, hcanonical pick hrun⟩

/-- A leaf is a well-formed constant, whatever its number and label. -/
theorem constants_leaf {i : Nat} {label : String} : Constants (IdTree.read (idLeaf i label)) :=
  .node (fun _ => ⟨rfl, rfl⟩) nofun

/-- A node of any other label has well-formed constants where its operands do. -/
theorem constants_node {a : IdNode} {kids : List IdTree} (ha : a.label ≠ "false")
    (hkids : ∀ c ∈ kids, Constants (IdTree.read c)) : Constants (IdTree.read (.node a kids)) := by
  rw [read_node]
  refine .node (fun h => absurd h ha) ?_
  intro c hc
  obtain ⟨d, hd, rfl⟩ := List.mem_map.mp hc
  exact hkids d hd

/-- A condition negated twice, with the arms exchanged twice or the negations taken away. -/
theorem canonicalizeGraph_confluent_select :
    let t := idSelect (idNot 2 (idNot 4 (idLeaf 6 "b"))) (idLeaf 7 "x") (idLeaf 8 "y")
    (canonicalizeTrace (fun _ => 0) t).length = 3 ∧ (canonicalizeTrace (fun _ => 1) t).length = 2 ∧
      IdTree.read (canonicalizeGraph (fun _ => 0) t) =
        IdTree.read (canonicalizeGraph (fun _ => 1) t) := by
  intro t
  have hcond : Ordered (idNot 2 (idNot 4 (idLeaf 6 "b"))) :=
    ((ordered_leaf _ _).not (by decide)).not (by decide)
  have horder : OperandOrder t :=
    ⟨hcond.select (ordered_leaf _ _) (ordered_leaf _ _) (by decide), by decide⟩
  have hnot : ∀ i t, Constants (IdTree.read t) → Constants (IdTree.read (idNot i t)) := by
    intro i t ht
    refine constants_node (a := ⟨i, ⟨"Eq", none⟩⟩) (show "Eq" ≠ "false" by decide) fun c hc => ?_
    rcases List.mem_pair.mp hc with rfl | rfl
    · exact constants_leaf
    · exact ht
  have hconstants : Constants (IdTree.read t) := by
    refine constants_node (by decide) fun c hc => ?_
    rw [List.mem_cons, List.mem_pair] at hc
    rcases hc with rfl | rfl | rfl
    · exact hnot _ _ (hnot _ _ constants_leaf)
    · exact constants_leaf
    · exact constants_leaf
  have hswapped : (canonicalizeTrace (fun _ => 0) t).IsChain (InPlace SpelledAlike) := by
    refine .cons_cons ?_ (.cons_cons ?_ (.singleton _))
    · exact .select rfl rfl (by decide)
    · exact .select (c := idLeaf 6 "b") (x := idLeaf 7 "y") (y := idLeaf 8 "x") rfl rfl (by decide)
  have htaken : (canonicalizeTrace (fun _ => 1) t).IsChain (InPlace SpelledAlike) := by
    refine .cons_cons ?_ (.singleton _)
    have hnot : InPlace SpelledAlike (idNot 2 (idNot 4 (idLeaf 6 "b"))) (idLeaf 6 "b") := by
      refine .doubleNot rfl ?_
      intro z hz
      cases hz
    exact .kid (l := []) hnot nofun (by decide)
  obtain ⟨-, hall⟩ := canonicalizeGraph_confluent t
  exact ⟨rfl, rfl, (hall horder hconstants _ _ hswapped htaken).1⟩

/-- `(Eq false (Eq false (Eq x false)))` -/
def threeNots : IdTree :=
  idNot 1 (idNot 3 (.node ⟨5, ⟨"Eq", none⟩⟩ [idLeaf 6 "x", idLeaf 7 "false"]))

/-- The three negations the example starts from are in order. -/
theorem threeNots_operandOrder : OperandOrder threeNots := by
  have hinner : Ordered (.node ⟨5, ⟨"Eq", none⟩⟩ [idLeaf 6 "x", idLeaf 7 "false"]) := by
    refine .node (by decide) ?_
    intro c hc
    rcases List.mem_pair.mp hc with rfl | rfl
    · exact ordered_leaf _ _
    · exact ordered_leaf _ _
  exact ⟨(hinner.not (by decide)).not (by decide), by decide⟩

/-- **Two orders of rewritings end apart**: with the arms exchanged before or after the negations in
front of one have gone, and with the outer or the inner two of three negations gone. -/
theorem canonicalizeGraph_apart :
    (OperandOrder negatedArmGraph ∧ ∃ pick pick', IdTree.read (canonicalizeGraph pick negatedArmGraph) ≠
      IdTree.read (canonicalizeGraph pick' negatedArmGraph)) ∧
    OperandOrder threeNots ∧ ∃ pick pick', IdTree.read (canonicalizeGraph pick threeNots) ≠
      IdTree.read (canonicalizeGraph pick' threeNots) := by
  refine ⟨⟨negatedArm_operandOrder, fun _ => 0, fun _ => 1, fun h => ?_⟩,
    threeNots_operandOrder, fun _ => 0, fun _ => 1, fun h => ?_⟩
  · exact absurd (congrArg RoseTree.labels h) (by decide +kernel)
  · exact absurd (congrArg RoseTree.labels h) (by decide +kernel)

end Assure
