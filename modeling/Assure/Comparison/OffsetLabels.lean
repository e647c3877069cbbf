import Assure.Comparison.PostProcess
import Assure.Library.Regex
import Mathlib.Algebra.Order.Group.Unbundled.Abs
import Mathlib.Algebra.Order.Group.Int

/-!
# The fields of an argument

`post_process_offset_node` runs on the graph of a visit before the graph is simplified. Where an argument is read
at a constant offset it writes the field that lies there in the place of the offset: the key of the offset in the
map of the fields, or the key of a field one, two or three elements of twelve bytes before it.

It takes the first two operands of every read, and raises where there is only one, where the second has no label,
and where an offset that is no field of the map, or a field it comes to, is no number for `int`. On a forest every
read is looked at as it was in the graph of the visit (`postProcessOffsetNode_eq_none_iff`), and what changes are
labels of leaves (`postProcessOffsetNode_relabels`); nodes, edges and types stay. Nothing is said here of the
nodes' numbers of bytes: that elements have twelve of them is the source's own choice.
-/

namespace Assure

open Assure.Library Assure.Library.OrderedGraph

/-! ## The code -/

/-- The digits of a number, with single underscores between them. -/
def magnitude? (digits : List Char) : Option Nat :=
  if ((digits.splitOn '_').all fun group => !group.isEmpty && group.all Char.isDigit) ∧
      (digits.filter (· ≠ '_')).length ≤ 4300 then
    some (Nat.ofDigitChars 10 (digits.filter (· ≠ '_')) 0)
  else none

/-- `int(text)` of an ASCII text. -/
def intOfText (text : String) : Option Int :=
  match (strip .ascii text).toList with
  | '-' :: digits => (magnitude? digits).map fun n => -n
  | '+' :: digits => (magnitude? digits).map fun n => n
  | digits => (magnitude? digits).map fun n => n

/-- The number of elements between a field and an offset, if it is one, two or three. The division is one of
floats and raises where the quotient has none. -/
def elementsAfter (leftNodeValue : Option String) (v : String) : Option (Option Int) := do
  let offset := (← intOfText (← leftNodeValue)) - (← intOfText v)
  guard (|offset| < 12 * (2 ^ 1024 - 2 ^ 970))
  let multiple := offset / 12
  return if 0 < offset ∧ offset % 12 = 0 ∧ 0 < multiple ∧ multiple < 4 then some multiple else none

/-- The second loop over the map. -/
def elementLabel (leftNodeValue : Option String) : List (String × String) → Option (Option String)
  | [] => some none
  | (k, v) :: items => do
    match ← elementsAfter leftNodeValue v with
    | some multiple => return some (k ++ "." ++ toString multiple)
    | none => elementLabel leftNodeValue items

/-- The label for an offset, if it gets another one. -/
def offsetLabel (offsetMap : Dict String String) (leftNodeValue : Option String) : Option (Option String) :=
  match offsetMap.entries.find? fun item => some item.2 == leftNodeValue with
  | some (k, _) => some (some k)
  | none => elementLabel leftNodeValue offsetMap.entries

/-- What is written for a node: another label for its first operand, or nothing. -/
def writtenLabel (offsetMap : Dict String String) (G : KqueryGraph) (upd : Nat) : Option (Option (Nat × String)) :=
  if G.label upd == some "ReadLSB" || G.label upd == some "Read" then
    match G.successors upd with
    | [] => some none
    | [_] => none
    | leftRoot :: rightRoot :: _ =>
      (G.label rightRoot).bind fun right =>
        if "arg_value".toList <+: right.toList ∧ G.successors leftRoot = [] then
          (offsetLabel offsetMap (G.label leftRoot)).map fun label => label.map fun label => (leftRoot, label)
        else some none
  else some none

/-- `G.nodes[n]['label'] = label` -/
def KqueryGraph.setLabel (G : KqueryGraph) (n : Nat) (label : String) : KqueryGraph where
  nodes := G.nodes.modify n fun attributes => { attributes with label := some label }
  edges := G.edges
  ends e he := by
    rw [Dict.keys_modify]
    exact G.ends e he

/-- One node of the loop. -/
def relabelRead (offsetMap : Dict String String) (G : KqueryGraph) (upd : Nat) : Option KqueryGraph :=
  (writtenLabel offsetMap G upd).map fun written => written.elim G fun item => G.setLabel item.1 item.2

/-- **`post_process_offset_node`** -/
def postProcessOffsetNode (offsetMap : Dict String String) (G : KqueryGraph) : Option KqueryGraph :=
  G.nodes.keys.foldlM (relabelRead offsetMap) G

/-! ## Another label -/

section SetLabel

variable {G : KqueryGraph} {n : Nat} {label : String}

/-- Writing a label leaves the edges, and their order. -/
@[simp] theorem successors_setLabel (u : Nat) : (G.setLabel n label).successors u = G.successors u := rfl

/-- It leaves the nodes and their order. -/
@[simp] theorem keys_setLabel : (G.setLabel n label).nodes.keys = G.nodes.keys := Dict.keys_modify _ _ _

/-- It leaves the types. -/
theorem type_setLabel (m : Nat) : (G.setLabel n label).type m = G.type m := by
  rw [KqueryGraph.type, KqueryGraph.type, KqueryGraph.setLabel, Dict.get?_modify]
  split
  · cases G.nodes.get? m <;> rfl
  · rfl

/-- It leaves the labels of the other nodes. -/
theorem label_setLabel_of_ne {m : Nat} (h : m ≠ n) : (G.setLabel n label).label m = G.label m := by
  rw [KqueryGraph.label, KqueryGraph.label, KqueryGraph.setLabel, Dict.get?_modify, if_neg h]

/-- The node itself has the label that was written. -/
theorem label_setLabel_self (h : n ∈ G) : (G.setLabel n label).label n = some label := by
  obtain ⟨attributes, hattributes⟩ := Option.ne_none_iff_exists'.mp
    fun hnone => (G.nodes.get?_eq_none_iff n).mp hnone h
  rw [KqueryGraph.label, KqueryGraph.setLabel, Dict.get?_modify, if_pos rfl, hattributes]
  rfl

end SetLabel

/-! ## What a node writes -/

section Written

variable {offsetMap : Dict String String} {G : KqueryGraph} {upd n : Nat} {label : String}

/-- **A leaf gets another label**, the first operand of the node. -/
theorem edge_of_writtenLabel (h : writtenLabel offsetMap G upd = some (some (n, label))) :
    G.Edge upd n ∧ G.successors n = [] := by
  unfold writtenLabel at h
  split at h
  · split at h
    · cases h
    · cases h
    · rename_i leftRoot rightRoot rest hsuccessors
      obtain ⟨right, -, h⟩ := Option.bind_eq_some_iff.mp h
      split at h
      · rename_i hleaf
        obtain ⟨found, -, h⟩ := Option.map_eq_some_iff.mp h
        obtain ⟨_, -, h⟩ := Option.map_eq_some_iff.mp h
        obtain rfl : leftRoot = n := congrArg Prod.fst h
        exact ⟨mem_successors.mp (hsuccessors ▸ List.mem_cons_self), hleaf.2⟩
      · cases h
  · cases h

/-- **The other reads see nothing of it**: in a forest the leaf is an operand of one node only. -/
theorem writtenLabel_setLabel (hG : G.IsForest) {other : Nat} (hedge : G.Edge upd n) (hleaf : G.successors n = [])
    (hother : other ≠ upd) :
    writtenLabel offsetMap (G.setLabel n label) other = writtenLabel offsetMap G other := by
  unfold writtenLabel
  by_cases hn : other = n
  · subst hn
    rw [successors_setLabel, hleaf]
    dsimp only
    split <;> split <;> rfl
  · rw [label_setLabel_of_ne hn, successors_setLabel]
    have hchild : ∀ {c}, G.Edge other c → c ≠ n := by
      rintro c hc rfl
      exact hother (hG.parent hc hedge)
    cases hsuccessors : G.successors other with
    | nil => rfl
    | cons leftRoot rest =>
      have hleft : G.Edge other leftRoot := mem_successors.mp (hsuccessors ▸ List.mem_cons_self)
      cases rest with
      | nil => rfl
      | cons rightRoot rest =>
        have hright : G.Edge other rightRoot :=
          mem_successors.mp (hsuccessors ▸ List.mem_cons_of_mem _ List.mem_cons_self)
        dsimp only
        rw [label_setLabel_of_ne (hchild hleft), label_setLabel_of_ne (hchild hright), successors_setLabel]

/-! ## The loop -/

/-- **What the loop has done** after some of the nodes: labels of leaves have changed, and only those that these
nodes write. -/
structure Relabelled (offsetMap : Dict String String) (G' G : KqueryGraph) (seen : List Nat) : Prop where
  keys : G'.nodes.keys = G.nodes.keys
  edges : G'.edges = G.edges
  type : ∀ n, G'.type n = G.type n
  written : ∀ {upd n label}, upd ∈ seen → writtenLabel offsetMap G upd = some (some (n, label)) →
    G'.label n = some label
  kept : ∀ {n}, (∀ upd ∈ seen, ∀ label, writtenLabel offsetMap G upd ≠ some (some (n, label))) →
    G'.label n = G.label n

/-- Relabelling keeps the edges of the graph. -/
theorem Relabelled.edge_iff {G' : KqueryGraph} {seen : List Nat} (h : Relabelled offsetMap G' G seen) {u v : Nat} :
    G'.Edge u v ↔ G.Edge u v := by
  rw [Edge, Edge, h.edges]

/-- It keeps the order of the operands of each node. -/
theorem Relabelled.successors {G' : KqueryGraph} {seen : List Nat} (h : Relabelled offsetMap G' G seen) (u : Nat) :
    G'.successors u = G.successors u := by
  rw [OrderedGraph.successors, OrderedGraph.successors, h.edges]

/-- The relabelled graph is a forest where the graph was one, so the passes may start from it. -/
theorem Relabelled.isForest {G' : KqueryGraph} {seen : List Nat} (h : Relabelled offsetMap G' G seen)
    (hG : G.IsForest) : G'.IsForest where
  parent hu hu' := hG.parent (h.edge_iff.mp hu) (h.edge_iff.mp hu')
  acyclic := by
    obtain ⟨rank, hrank⟩ := hG.acyclic
    exact ⟨rank, fun hedge => hrank (h.edge_iff.mp hedge)⟩

/-- **One node of the loop** that has not been seen writes what it would have written at first. -/
theorem Relabelled.step (hG : G.IsForest) {G' G'' : KqueryGraph} {seen : List Nat}
    (h : Relabelled offsetMap G' G seen)
    (hsame : ∀ other, other ∉ seen → writtenLabel offsetMap G' other = writtenLabel offsetMap G other)
    (hupd : upd ∉ seen) (hrun : relabelRead offsetMap G' upd = some G'') :
    Relabelled offsetMap G'' G (seen ++ [upd]) ∧ ∀ other, other ∉ seen ++ [upd] →
      writtenLabel offsetMap G'' other = writtenLabel offsetMap G other := by
  obtain ⟨written, hwritten, rfl⟩ := Option.map_eq_some_iff.mp hrun
  rw [hsame upd hupd] at hwritten
  cases written with
  | none =>
    refine ⟨⟨h.keys, h.edges, h.type, fun hseen hlabel => ?_, fun hnone => h.kept fun u hu =>
      hnone u (List.mem_append_left _ hu)⟩, fun other hother => hsame other fun hseen =>
        hother (List.mem_append_left _ hseen)⟩
    rcases List.mem_append.mp hseen with hseen | hseen
    · exact h.written hseen hlabel
    · obtain rfl := List.mem_singleton.mp hseen
      rw [hwritten] at hlabel
      cases hlabel
  | some item =>
    obtain ⟨n, label⟩ := item
    obtain ⟨hedge, hleaf⟩ := edge_of_writtenLabel hwritten
    have hedge' : G'.Edge upd n := h.edge_iff.mpr hedge
    show Relabelled offsetMap (G'.setLabel n label) G (seen ++ [upd]) ∧ _
    constructor
    · refine ⟨keys_setLabel.trans h.keys, h.edges, fun m => (type_setLabel m).trans (h.type m), ?_, ?_⟩
      · intro u m label' hseen hlabel
        rcases List.mem_append.mp hseen with hseen | hseen
        · have hne : m ≠ n := by
            rintro rfl
            exact hupd (hG.parent (edge_of_writtenLabel hlabel).1 hedge ▸ hseen)
          rw [label_setLabel_of_ne hne]
          exact h.written hseen hlabel
        · obtain rfl := List.mem_singleton.mp hseen
          rw [hwritten] at hlabel
          cases hlabel
          exact label_setLabel_self hedge'.right
      · intro m hnone
        have hne : m ≠ n := by
          rintro rfl
          exact hnone upd (by simp) label hwritten
        rw [label_setLabel_of_ne hne]
        exact h.kept fun u hu => hnone u (List.mem_append_left _ hu)
    · intro other hother
      rw [List.mem_append, List.mem_singleton, not_or] at hother
      refine (writtenLabel_setLabel (h.isForest hG) hedge' ?_ hother.2).trans (hsame other hother.1)
      rw [h.successors, hleaf]

/-- **The loop over some nodes** raises exactly if one of them does, and otherwise has written what they write. -/
theorem foldlM_relabelRead (hG : G.IsForest) (nodes : List Nat) (hnodup : nodes.Nodup) :
    (nodes.foldlM (relabelRead offsetMap) G = none ↔ ∃ upd ∈ nodes, writtenLabel offsetMap G upd = none) ∧
      ∀ G', nodes.foldlM (relabelRead offsetMap) G = some G' → Relabelled offsetMap G' G nodes ∧
        ∀ other, other ∉ nodes → writtenLabel offsetMap G' other = writtenLabel offsetMap G other := by
  induction nodes using List.reverseRecOn with
  | nil =>
    refine ⟨by simp, fun G' h => ?_⟩
    obtain rfl := Option.some.inj h
    exact ⟨⟨rfl, rfl, fun _ => rfl, fun hmem => absurd hmem List.not_mem_nil, fun _ => rfl⟩, fun _ _ => rfl⟩
  | append_singleton nodes upd ih =>
    obtain ⟨hnodes, -, hdisjoint⟩ := List.nodup_append.mp hnodup
    have hupd : upd ∉ nodes := fun hmem => hdisjoint upd hmem upd List.mem_cons_self rfl
    obtain ⟨hnone, hsome⟩ := ih hnodes
    rw [List.foldlM_append]
    cases hrun : nodes.foldlM (relabelRead offsetMap) G with
    | none =>
      obtain ⟨u, hu, hraises⟩ := hnone.mp hrun
      exact ⟨iff_of_true rfl ⟨u, List.mem_append_left _ hu, hraises⟩, fun G' h => nomatch h⟩
    | some G' =>
      obtain ⟨hrelabelled, hsame⟩ := hsome G' hrun
      have hlast : (some G' >>= fun G' => [upd].foldlM (relabelRead offsetMap) G') = relabelRead offsetMap G' upd := by
        rw [Option.bind_eq_bind, Option.bind_some, List.foldlM_cons]
        cases relabelRead offsetMap G' upd <;> rfl
      rw [hlast]
      refine ⟨?_, fun G'' h => hrelabelled.step hG hsame hupd h⟩
      rw [relabelRead, Option.map_eq_none_iff, hsame upd hupd]
      constructor
      · exact fun h => ⟨upd, by simp, h⟩
      · rintro ⟨u, hu, hraises⟩
        rcases List.mem_append.mp hu with hu | hu
        · rw [hnone.mpr ⟨u, hu, hraises⟩] at hrun
          cases hrun
        · exact List.mem_singleton.mp hu ▸ hraises

/-- **When the fields cannot be written**: exactly if a node of the graph raises as it is. -/
theorem postProcessOffsetNode_eq_none_iff (hG : G.IsForest) :
    postProcessOffsetNode offsetMap G = none ↔ ∃ upd ∈ G, writtenLabel offsetMap G upd = none :=
  (foldlM_relabelRead hG G.nodes.keys G.nodes.keys_nodup).1

/-- **What is written**: the labels that the nodes of the graph write as they are, and nothing else. -/
theorem postProcessOffsetNode_relabels (hG : G.IsForest) {G' : KqueryGraph}
    (h : postProcessOffsetNode offsetMap G = some G') : Relabelled offsetMap G' G G.nodes.keys :=
  ((foldlM_relabelRead hG G.nodes.keys G.nodes.keys_nodup).2 G' h).1

end Written

end Assure
