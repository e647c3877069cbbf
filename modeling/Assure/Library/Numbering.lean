import Assure.Library.RoseTree
import Mathlib.Tactic.Common

/-!
# Numbered trees

A counter numbers the nodes of a tree as they are made. Each child is finished before the next one is
begun, so the numbers of a child come before all those of the next; a node is made before its first
child or after its last one. `Numbered` says so, between two values of the counter, and names the
labels that are always made before their children.

The numbers of such a tree are distinct (`Numbered.nodup`).
-/

namespace Assure.Library.RoseTree

variable {α : Type*}

mutual

/-- **The numbers of the tree**, after `lo` and up to `hi`; labels in `first` come before their
children. -/
inductive Numbered (id : α → Nat) (first : α → Prop) : Nat → Nat → RoseTree α → Prop
  | before {lo hi : Nat} {a : α} {cs : List (RoseTree α)} (hlo : lo < id a)
    (hcs : NumberedAll id first (id a) hi cs) : Numbered id first lo hi (node a cs)
  | after {lo mid hi : Nat} {a : α} {cs : List (RoseTree α)} (ha : ¬ first a)
    (hcs : NumberedAll id first lo mid cs) (hmid : mid < id a) (hhi : id a ≤ hi) :
    Numbered id first lo hi (node a cs)

/-- The numbers of several trees, one after the other. -/
inductive NumberedAll (id : α → Nat) (first : α → Prop) : Nat → Nat → List (RoseTree α) → Prop
  | nil {lo hi : Nat} (h : lo ≤ hi) : NumberedAll id first lo hi []
  | cons {lo mid hi : Nat} {c : RoseTree α} {cs : List (RoseTree α)}
    (hc : Numbered id first lo mid c) (hcs : NumberedAll id first mid hi cs) :
    NumberedAll id first lo hi (c :: cs)

end

variable {id : α → Nat} {first : α → Prop}

mutual

/-- The numbers of a tree lie between what was the counter before and after it. -/
theorem Numbered.bounds {lo hi : Nat} {t : RoseTree α} (h : Numbered id first lo hi t) :
    lo < hi ∧ ∀ a ∈ t.labels, lo < id a ∧ id a ≤ hi := by
  cases h with
  | before hlo hcs =>
    obtain ⟨hle, hall⟩ := hcs.bounds
    refine ⟨by omega, ?_⟩
    intro b hb
    rw [labels_node, List.mem_cons] at hb
    rcases hb with rfl | hb
    · exact ⟨hlo, hle⟩
    · have := hall b hb
      omega
  | after ha hcs hmid hhi =>
    obtain ⟨hle, hall⟩ := hcs.bounds
    refine ⟨by omega, ?_⟩
    intro b hb
    rw [labels_node, List.mem_cons] at hb
    rcases hb with rfl | hb
    · omega
    · have := hall b hb
      omega

/-- So do the numbers of a list of trees. -/
theorem NumberedAll.bounds {lo hi : Nat} {cs : List (RoseTree α)}
    (h : NumberedAll id first lo hi cs) :
    lo ≤ hi ∧ ∀ a ∈ cs.flatMap labels, lo < id a ∧ id a ≤ hi := by
  cases h with
  | nil h => exact ⟨h, by simp⟩
  | cons hc hcs =>
    obtain ⟨hlt, hone⟩ := hc.bounds
    obtain ⟨hle, hall⟩ := hcs.bounds
    refine ⟨by omega, ?_⟩
    intro b hb
    rw [List.flatMap_cons, List.mem_append] at hb
    rcases hb with hb | hb
    · have := hone b hb
      omega
    · have := hall b hb
      omega

end

mutual

/-- **The numbers are distinct.** -/
theorem Numbered.nodup {lo hi : Nat} {t : RoseTree α} (h : Numbered id first lo hi t) :
    (t.labels.map id).Nodup := by
  cases h with
  | before hlo hcs =>
    rw [labels_node, List.map_cons, List.nodup_cons]
    refine ⟨?_, hcs.nodup⟩
    intro hmem
    obtain ⟨b, hb, hid⟩ := List.mem_map.mp hmem
    have := hcs.bounds.2 b hb
    omega
  | after ha hcs hmid hhi =>
    rw [labels_node, List.map_cons, List.nodup_cons]
    refine ⟨?_, hcs.nodup⟩
    intro hmem
    obtain ⟨b, hb, hid⟩ := List.mem_map.mp hmem
    have := hcs.bounds.2 b hb
    omega

/-- No number is given out twice. -/
theorem NumberedAll.nodup {lo hi : Nat} {cs : List (RoseTree α)}
    (h : NumberedAll id first lo hi cs) : ((cs.flatMap labels).map id).Nodup := by
  cases h with
  | nil h => exact List.nodup_nil
  | cons hc hcs =>
    rw [List.flatMap_cons, List.map_append, List.nodup_append]
    refine ⟨hc.nodup, hcs.nodup, ?_⟩
    intro i hi j hj heq
    obtain ⟨a, ha, rfl⟩ := List.mem_map.mp hi
    obtain ⟨b, hb, rfl⟩ := List.mem_map.mp hj
    have := hc.bounds.2 a ha
    have := hcs.bounds.2 b hb
    omega

end

mutual

/-- The counter may go on. -/
theorem Numbered.mono {lo hi lo' hi' : Nat} {t : RoseTree α} (h : Numbered id first lo hi t)
    (hlo : lo' ≤ lo) (hhi : hi ≤ hi') : Numbered id first lo' hi' t := by
  cases h with
  | before h hcs => exact .before (by omega) (hcs.mono (Nat.le_refl _) hhi)
  | after ha hcs hmid h => exact .after ha (hcs.mono hlo (Nat.le_refl _)) hmid (by omega)

/-- The bounds may be taken wider. -/
theorem NumberedAll.mono {lo hi lo' hi' : Nat} {cs : List (RoseTree α)}
    (h : NumberedAll id first lo hi cs) (hlo : lo' ≤ lo) (hhi : hi ≤ hi') :
    NumberedAll id first lo' hi' cs := by
  cases h with
  | nil h => exact .nil (by omega)
  | cons hc hcs => exact .cons (hc.mono hlo (Nat.le_refl _)) (hcs.mono (Nat.le_refl _) hhi)

end

/-- The trees below a numbered root are numbered. -/
theorem Numbered.children {lo hi : Nat} {a : α} {cs : List (RoseTree α)}
    (h : Numbered id first lo hi (node a cs)) : ∃ lo hi, NumberedAll id first lo hi cs := by
  cases h with
  | before _ hcs => exact ⟨_, _, hcs⟩
  | after _ hcs _ _ => exact ⟨_, _, hcs⟩

/-- Each tree of a numbered list is numbered. -/
theorem NumberedAll.of_mem {lo hi : Nat} {cs : List (RoseTree α)} (h : NumberedAll id first lo hi cs)
    {c : RoseTree α} (hc : c ∈ cs) : ∃ lo hi, Numbered id first lo hi c := by
  induction cs generalizing lo with
  | nil => cases hc
  | cons d cs ih =>
    cases h with
    | cons hd hcs =>
      rcases List.mem_cons.mp hc with rfl | hc
      · exact ⟨_, _, hd⟩
      · exact ih hcs hc

/-- **The numbers of a child come before those of the next.** -/
theorem NumberedAll.pairwise {lo hi : Nat} {cs : List (RoseTree α)}
    (h : NumberedAll id first lo hi cs) :
    cs.Pairwise fun c d => ∀ a ∈ c.labels, ∀ b ∈ d.labels, id a < id b := by
  induction cs generalizing lo with
  | nil => exact .nil
  | cons c cs ih =>
    cases h with
    | cons hc hcs =>
      refine .cons ?_ (ih hcs)
      intro d hd a ha b hb
      have := hc.bounds.2 a ha
      have := hcs.bounds.2 b (List.mem_flatMap.mpr ⟨d, hd, hb⟩)
      omega

/-- Another label with the same number. -/
theorem Numbered.mapRoot {f : α → α} (hid : ∀ a, id (f a) = id a)
    (hfirst : ∀ a, first (f a) → first a) {lo hi : Nat} {t : RoseTree α}
    (h : Numbered id first lo hi t) : Numbered id first lo hi (t.mapRoot f) := by
  cases h with
  | before hlo hcs => exact .before (by rwa [hid]) (by rwa [hid])
  | after ha hcs hmid hhi =>
    exact .after (fun h => ha (hfirst _ h)) hcs (by rwa [hid]) (by rwa [hid])

/-- Two lists that are numbered one after the other are numbered together. -/
theorem NumberedAll.append {lo mid hi : Nat} {cs ds : List (RoseTree α)}
    (hcs : NumberedAll id first lo mid cs) (hds : NumberedAll id first mid hi ds) :
    NumberedAll id first lo hi (cs ++ ds) := by
  induction cs generalizing lo with
  | nil => exact hds.mono hcs.bounds.1 (Nat.le_refl _)
  | cons c cs ih =>
    cases hcs with
    | cons hc hcs => exact .cons hc (ih hcs)

end Assure.Library.RoseTree
