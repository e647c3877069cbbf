import Assure.Library.Worklist
import Assure.Types.TopoBatches

/-!
# What a batch needs before it

When a batch is translated, the prompt lists the Rust code of every type the batch reaches:
`ordered_closure(predecessors_of_batch(batch))`. The closure is a worklist search from the direct
dependencies outside the batch, and is listed in the order of the batches, so dependencies come
first and every listed type was translated before (`orderedClosure_predecessors`). A path that
leaves the batch cannot come back, since it would tie what it passed through to the batch.
-/

namespace Assure

open Assure.Library
open scoped BigOperators

namespace TypeDependencyGraph

/-- **`closure`** -/
def closure (order : SetOrder TypeNodeKey) (g : TypeDependencyGraph) (rootKeys : List TypeNodeKey) :
    Option (Finset TypeNodeKey) :=
  let roots := rootKeys.filter fun key => key ∈ g.nodes
  let neighbors key := order.toList (g.adjacency key)
  (whileLoop (fun s => !s.queue.isEmpty) (Worklist.pass neighbors)
    (roots.length + ∑ key ∈ g.nodes.toFinset, (neighbors key).length) ⟨roots, ∅⟩).map
      Worklist.visited

/-- `flattened_topo_order` -/
def flattenedTopoOrder (order : SetOrder TypeNodeKey) (idOrder : SetOrder Nat)
    (g : TypeDependencyGraph) : Option (List TypeNodeKey) :=
  (g.topoBatches order idOrder).map fun batches => batches.flatMap sortedKeys

/-- **`ordered_closure`** -/
def orderedClosure (order : SetOrder TypeNodeKey) (idOrder : SetOrder Nat)
    (g : TypeDependencyGraph) (rootKeys : List TypeNodeKey) : Option (List TypeNodeKey) :=
  (g.closure order rootKeys).bind fun closureKeys =>
    (g.flattenedTopoOrder order idOrder).map fun keys => keys.filter fun key => key ∈ closureKeys

/-- `predecessors_of_batch` -/
def predecessorsOfBatch (g : TypeDependencyGraph) (batch : List TypeNodeKey) :
    Finset TypeNodeKey :=
  batch.foldl (fun predecessors key => predecessors ∪ g.adjacency key) ∅ \ batch.toFinset

variable {order : SetOrder TypeNodeKey} {idOrder : SetOrder Nat} {g : TypeDependencyGraph}

/-- Going through a batch gathers what each of its types depends on. -/
theorem mem_foldl_union {key : TypeNodeKey} : ∀ (batch : List TypeNodeKey) (s : Finset TypeNodeKey),
    key ∈ batch.foldl (fun predecessors key => predecessors ∪ g.adjacency key) s ↔
      key ∈ s ∨ ∃ a ∈ batch, key ∈ g.adjacency a
  | [], s => by simp
  | a :: batch, s => by
    rw [List.foldl_cons, mem_foldl_union batch]
    simp [or_assoc]

/-- The predecessors of a batch are what it depends on outside of itself. -/
theorem mem_predecessorsOfBatch {batch : List TypeNodeKey} {key : TypeNodeKey} :
    key ∈ g.predecessorsOfBatch batch ↔ (∃ a ∈ batch, key ∈ g.adjacency a) ∧ key ∉ batch := by
  simp [predecessorsOfBatch, mem_foldl_union]

/-- **The closure is what can be reached from the roots.** -/
theorem closure_spec (order : SetOrder TypeNodeKey) (g : TypeDependencyGraph)
    (rootKeys : List TypeNodeKey) : ∃ visited, g.closure order rootKeys = some visited ∧
      ∀ key, key ∈ visited ↔ ∃ r ∈ rootKeys, r ∈ g.nodes ∧ g.Reaches r key := by
  obtain ⟨s, hs, hmem⟩ := worklist_spec (fun key => order.toList (g.adjacency key))
    g.nodes.toFinset
    (fun v _ w hw => List.mem_toFinset.mpr (g.mem_nodes v w ((order.mem_toList _ _).mp hw)).2)
    (rootKeys.filter fun key => key ∈ g.nodes)
    (fun r hr => List.mem_toFinset.mpr (by simpa using (List.mem_filter.mp hr).2))
  refine ⟨s.visited, by simp only [closure, hs, Option.map_some], fun key => ?_⟩
  have hreach : ∀ r, Reach (fun key => order.toList (g.adjacency key)) r key ↔ g.Reaches r key :=
    fun r => reach_iff fun _ _ => order.mem_toList _ _
  simp only [hmem, hreach, List.mem_filter, decide_eq_true_eq, and_assoc]

/-- **What a batch needs**, listed: all nodes it reaches outside itself, each once, after what they
depend on and are not in a cycle with, and all from earlier batches. -/
structure PriorTypes (g : TypeDependencyGraph) (earlier : List (List TypeNodeKey))
    (batch keys : List TypeNodeKey) : Prop where
  mem_iff : ∀ key, key ∈ keys ↔ key ∉ batch ∧ ∃ a ∈ batch, g.Reaches a key
  nodup : keys.Nodup
  ordered : ∀ before key after, keys = before ++ key :: after →
    ∀ d, g.Reaches key d → ¬ g.Reaches d key → d ∈ before
  earlier : ∀ key ∈ keys, key ∈ earlier.flatten

/-- Whatever a type of a batch depends on, directly or not, is in the batch or in an earlier one. -/
theorem Batches.reach_earlier {batches earlier later : List (List TypeNodeKey)}
    {batch : List TypeNodeKey} (h : g.Batches batches) (heq : batches = earlier ++ batch :: later)
    {a b : TypeNodeKey} (ha : a ∈ batch) (hab : g.Reaches a b) : b ∈ batch ∨ b ∈ earlier.flatten := by
  have hfirst : CalleesFirst (fun a => (g.adjacency a).toList) (earlier ++ batch :: later) :=
    fun pre C post hsplit u hu v hv =>
      h.dependenciesFirst pre C post (heq.trans hsplit) u hu v (Finset.mem_toList.mp hv)
  exact hfirst.reach_earlier ha ((reach_iff fun _ _ => Finset.mem_toList).mpr hab)

/-- What lies outside a batch and is reached from it is reached from its predecessors, and the other
way round. -/
theorem reaches_predecessors {batches : List (List TypeNodeKey)} {batch : List TypeNodeKey}
    (h : g.Batches batches) (hbatch : batch ∈ batches) (key : TypeNodeKey) :
    (∃ r ∈ g.predecessorsOfBatch batch, g.Reaches r key) ↔
      key ∉ batch ∧ ∃ a ∈ batch, g.Reaches a key := by
  constructor
  · rintro ⟨r, hr, hreach⟩
    obtain ⟨⟨a, ha, har⟩, hrbatch⟩ := mem_predecessorsOfBatch.mp hr
    have hstep : g.Reaches a r := .single har
    refine ⟨fun hkey => hrbatch ?_, a, ha, hstep.trans hreach⟩
    -- back in the batch, the path would tie `r` to it
    have hback := ((h.linked batch hbatch key hkey a).mp ha).1
    exact (h.linked batch hbatch a ha r).mpr ⟨hstep, hreach.trans hback⟩
  · rintro ⟨hkey, a, ha, hreach⟩
    have hall : key ∈ batch ∨ ∃ r ∈ g.predecessorsOfBatch batch, g.Reaches r key := by
      clear hkey
      induction hreach with
      | refl => exact .inl ha
      | @tail b c _ hbc ih =>
        rcases ih with hb | ⟨r, hr, hrb⟩
        · by_cases hc : c ∈ batch
          · exact .inl hc
          · exact .inr ⟨c, mem_predecessorsOfBatch.mpr ⟨⟨b, hb, hbc⟩, hc⟩, .refl⟩
        · exact .inr ⟨r, hr, hrb.tail hbc⟩
    exact hall.resolve_left hkey

/-- Of two parts of a list without repetition, the first part lies before every member of the
second. -/
theorem mem_before_of_split {α : Type*} {xs ys before after : List α} {a b : α}
    (hnd : (xs ++ ys).Nodup) (ha : a ∈ xs) (hb : b ∈ ys) (heq : xs ++ ys = before ++ b :: after) :
    a ∈ before := by
  rcases List.append_eq_append_iff.mp heq with ⟨cs, rfl, -⟩ | ⟨cs, rfl, hcs⟩
  · exact List.mem_append_left _ ha
  · cases cs with
    | nil => simpa using ha
    | cons c cs =>
      obtain rfl : b = c := (List.cons.inj hcs).1
      exact absurd rfl ((List.nodup_append.mp hnd).2.2 b (by simp) b hb)

/-- **The prompt of every batch lists what the batch needs**: all nodes that it reaches outside itself, each once,
after what they depend on and are not in a cycle with. All of them are in earlier batches, whatever the order of the
sets. -/
theorem orderedClosure_predecessors (g : TypeDependencyGraph) (order : SetOrder TypeNodeKey)
    (idOrder : SetOrder Nat) : ∃ batches, g.topoBatches order idOrder = some batches ∧
      ∀ earlier batch later, batches = earlier ++ batch :: later →
        ∃ keys, g.orderedClosure order idOrder (order.toList (g.predecessorsOfBatch batch)) =
          some keys ∧ g.PriorTypes earlier batch keys := by
  obtain ⟨batches, hrun, h, -⟩ := g.topoBatches_batches order idOrder
  refine ⟨batches, hrun, fun earlier batch later heq => ?_⟩
  have hbatch : batch ∈ batches := by simp [heq]
  obtain ⟨visited, hvisited, hmem⟩ :=
    g.closure_spec order (order.toList (g.predecessorsOfBatch batch))
  have hclosure : ∀ key, key ∈ visited ↔ key ∉ batch ∧ ∃ a ∈ batch, g.Reaches a key := by
    intro key
    rw [hmem, ← reaches_predecessors h hbatch key]
    refine exists_congr fun r => ?_
    rw [order.mem_toList]
    constructor
    · rintro ⟨hr, -, hreach⟩
      exact ⟨hr, hreach⟩
    · rintro ⟨hr, hreach⟩
      obtain ⟨⟨a, -, har⟩, -⟩ := mem_predecessorsOfBatch.mp hr
      exact ⟨hr, (g.mem_nodes a r har).2, hreach⟩
  have hflatMap : ∀ bs : List (List TypeNodeKey), (bs.flatMap sortedKeys).Perm bs.flatten := by
    intro bs
    rw [List.flatMap]
    refine List.Perm.flatten_congr ?_
    rw [List.forall₂_map_left_iff]
    exact List.forall₂_same.mpr fun C _ => sortedKeys_perm C
  have hnodes : ∀ a key, a ∈ batch → g.Reaches a key → key ∈ g.nodes := by
    intro a key ha hreach
    rcases h.reach_earlier heq ha hreach with hk | hk
    · exact h.partition.mem_iff.mp (List.mem_flatten.mpr ⟨batch, hbatch, hk⟩)
    · exact h.partition.mem_iff.mp (by rw [heq, List.flatten_append]; exact List.mem_append_left _ hk)
  have hnd : (batches.flatMap sortedKeys).Nodup :=
    (hflatMap batches).nodup_iff.mpr (h.partition.nodup_iff.mpr g.nodup)
  refine ⟨_, by rw [orderedClosure, hvisited, flattenedTopoOrder, hrun]; rfl,
    fun key => ?_, hnd.filter _, fun before key after hsplit d hd hnot => ?_, fun key hkey => ?_⟩
  · rw [List.mem_filter, decide_eq_true_eq, hclosure]
    refine ⟨fun hkey => hkey.2, fun hkey => ⟨?_, hkey⟩⟩
    obtain ⟨-, a, ha, hreach⟩ := hkey
    exact (hflatMap batches).mem_iff.mpr (h.partition.mem_iff.mpr (hnodes a key ha hreach))
  · -- `key` is in some batch, and `d`, not linked to it, in an earlier one
    have hkey := hsplit ▸ List.mem_append_right before (List.mem_cons_self (a := key) (l := after))
    obtain ⟨hkeyflat, hkeyclosure⟩ := List.mem_filter.mp hkey
    obtain ⟨hkeyout, a, ha, hreach⟩ := (hclosure key).mp (by simpa using hkeyclosure)
    obtain ⟨C, hC, hkeyC⟩ := List.mem_flatten.mp ((hflatMap batches).mem_iff.mp hkeyflat)
    obtain ⟨pre, post, hpre⟩ := List.append_of_mem hC
    have hdC : d ∉ C := fun hdC => hnot ((h.linked C hC key hkeyC d).mp hdC).2
    have hdpre := (h.reach_earlier hpre hkeyC hd).resolve_left hdC
    have hdout : d ∉ batch := fun hdb =>
      hnot (((h.linked batch hbatch d hdb a).mp ha).1.trans hreach)
    have hdclosure := (hclosure d).mpr ⟨hdout, a, ha, hreach.trans hd⟩
    rw [hpre, List.flatMap_append, List.filter_append] at hsplit
    have hnd' := hnd.filter fun key => key ∈ visited
    rw [hpre, List.flatMap_append, List.filter_append] at hnd'
    refine mem_before_of_split hnd' (List.mem_filter.mpr ⟨(hflatMap pre).mem_iff.mpr hdpre, by
      simpa using hdclosure⟩) (List.mem_filter.mpr ⟨?_, hkeyclosure⟩) hsplit
    exact List.mem_flatMap.mpr ⟨C, List.mem_cons_self, mem_sortedKeys.mpr hkeyC⟩
  · obtain ⟨hkeyout, a, ha, hreach⟩ := (hclosure key).mp (by simpa using (List.mem_filter.mp hkey).2)
    exact (h.reach_earlier heq ha hreach).resolve_left hkeyout

end TypeDependencyGraph

end Assure
