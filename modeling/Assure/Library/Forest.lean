import Assure.Library.OrderedGraph

/-!
# Forests

A graph is a forest if no node has two parents and no path comes back. Then the nodes above a node are a
chain (`IsForest.comparable`), and nothing is below two children of one node (`IsForest.disjoint`).

Three changes keep a graph a forest. Taking out whole subtrees leaves everything else as it was. Taking a
node out and handing some of its children to its parent leaves all that is below one another so, if all
children are handed on. Putting the subtree at a child in the place of the whole subtree is both.
-/

namespace Assure.Library

namespace OrderedGraph

variable {ν α ε : Type*} [DecidableEq ν]

/-- **A forest**: one parent at most, and edges that climb. -/
structure IsForest (G : OrderedGraph ν α ε) : Prop where
  parent : ∀ {u u' v}, G.Edge u v → G.Edge u' v → u = u'
  acyclic : ∃ rank : ν → Nat, ∀ {u v}, G.Edge u v → rank u < rank v

/-- Where ranks grow along edges, they grow along paths. -/
theorem Below.rank_le {G : OrderedGraph ν α ε} {rank : ν → Nat}
    (hrank : ∀ {u v}, G.Edge u v → rank u < rank v) {u v : ν} (h : G.Below u v) : rank u ≤ rank v := by
  induction h with
  | refl => exact Nat.le_refl _
  | tail _ hedge ih => exact ih.trans (Nat.le_of_lt (hrank (mem_successors.mp hedge)))

namespace IsForest

variable {G : OrderedGraph ν α ε} {a b p u v x : ν}

/-- In a forest no two vertices lie below each other. -/
theorem antisymm (hG : G.IsForest) (h : G.Below u v) (h' : G.Below v u) : u = v := by
  obtain ⟨rank, hrank⟩ := hG.acyclic
  rcases h.eq_or_parent with heq | ⟨w, hw, hedge⟩
  · exact heq
  · have hle := Below.rank_le hrank hw
    have hlt := hrank hedge
    have hle' := Below.rank_le hrank h'
    omega

omit [DecidableEq ν] in
/-- In a forest no edge leads back to its start. -/
theorem ne_of_edge (hG : G.IsForest) (h : G.Edge u v) : u ≠ v := by
  obtain ⟨rank, hrank⟩ := hG.acyclic
  rintro rfl
  exact absurd (hrank h) (Nat.lt_irrefl _)

/-- In a forest nothing lies below what is below it. -/
theorem not_below_of_edge (hG : G.IsForest) (h : G.Edge u v) : ¬ G.Below v u := fun h' =>
  hG.ne_of_edge h (hG.antisymm (.of_edge h) h')

/-- **The nodes above a node are a chain.** -/
theorem comparable (hG : G.IsForest) (ha : G.Below a x) (hb : G.Below b x) :
    G.Below a b ∨ G.Below b a := by
  induction ha with
  | refl => exact .inr hb
  | @tail w y hw hedge ih =>
    rcases hb.eq_or_parent with rfl | ⟨w', hw', hedge'⟩
    · exact .inl (hw.tail hedge)
    · obtain rfl := hG.parent (mem_successors.mp hedge) hedge'
      exact ih hw'

/-- The one parent. -/
theorem predecessors_eq (hG : G.IsForest) (h : G.Edge p a) : G.predecessors a = [p] := by
  apply List.Perm.eq_singleton
  apply (List.perm_ext_iff_of_nodup (predecessors_nodup G a) (List.nodup_singleton p)).mpr
  intro q
  rw [mem_predecessors, List.mem_singleton]
  exact ⟨fun hq => hG.parent hq h, fun hq => hq ▸ h⟩

/-- What is above a child is the child or above the parent. -/
theorem eq_or_below_parent (hG : G.IsForest) (hedge : G.Edge p a) (h : G.Below u a) :
    u = a ∨ G.Below u p := by
  rcases h.eq_or_parent with rfl | ⟨w, hw, hedge'⟩
  · exact .inl rfl
  · obtain rfl := hG.parent hedge hedge'
    exact .inr hw

/-- **Nothing is below two children of a node.** -/
theorem disjoint (hG : G.IsForest) (ha : G.Edge p a) (hb : G.Edge p b) (hne : a ≠ b)
    (hax : G.Below a x) : ¬ G.Below b x := by
  have hsibling : ∀ {a b}, G.Edge p a → G.Edge p b → G.Below a b → a = b := by
    intro a b ha hb h
    rcases hG.eq_or_below_parent hb h with heq | h
    · exact heq
    · exact absurd h (hG.not_below_of_edge ha)
  intro hbx
  rcases hG.comparable hax hbx with h | h
  · exact hne (hsibling ha hb h)
  · exact hne (hsibling hb ha h).symm

end IsForest

/-! ## Graphs inside graphs -/

/-- **Pruned**: some nodes are gone, and nothing has come below anything. What is left between a node and
one below it stays between them. -/
structure Prunes (G' G : OrderedGraph ν α ε) : Prop where
  nodes : G'.nodes.entries.Sublist G.nodes.entries
  below : ∀ {u v}, G'.Below u v → G.Below u v
  convex : ∀ {u v a}, a ∈ G' → G'.Below u v → G.Below u a → G.Below a v → G'.Below u a ∧ G'.Below a v

/-- **Restricted**: the nodes of `P` are left, and are below one another as they were. -/
structure Restricts (G' G : OrderedGraph ν α ε) (P : ν → Prop) : Prop where
  nodes : G'.nodes.entries.Sublist G.nodes.entries
  mem : ∀ {x}, x ∈ G' ↔ x ∈ G ∧ P x
  below : ∀ {u v}, u ∈ G' → v ∈ G' → (G'.Below u v ↔ G.Below u v)

section Inside

variable {G G' G'' : OrderedGraph ν α ε} {P Q : ν → Prop}

/-- A graph is a pruning of itself. -/
theorem Prunes.refl (G : OrderedGraph ν α ε) : Prunes G G := ⟨.refl _, id, fun _ _ ha hv => ⟨ha, hv⟩⟩

/-- A pruning has no new vertices. -/
theorem Prunes.mem (h : Prunes G' G) {x : ν} (hx : x ∈ G') : x ∈ G :=
  (h.nodes.map Prod.fst).subset hx

/-- A pruning of a pruning is one. -/
theorem Prunes.trans (h : Prunes G' G) (h' : Prunes G'' G') : Prunes G'' G where
  nodes := h'.nodes.trans h.nodes
  below hbelow := h.below (h'.below hbelow)
  convex ha hbelow hua hav := by
    obtain ⟨hua', hav'⟩ := h.convex (h'.mem ha) (h'.below hbelow) hua hav
    exact h'.convex ha hbelow hua' hav'

/-- Edges that pass over nothing that is left. -/
theorem Prunes.of_edges (hG : G.IsForest) (hnodes : G'.nodes.entries.Sublist G.nodes.entries)
    (hedge : ∀ {x y}, G'.Edge x y → G.Below x y ∧
      ∀ {a}, a ∈ G' → G.Below x a → G.Below a y → a = x ∨ a = y) : Prunes G' G := by
  have hbelow : ∀ {u v}, G'.Below u v → G.Below u v := by
    intro u v h
    induction h with
    | refl => exact .refl _
    | tail _ hstep ih => exact ih.trans (hedge (mem_successors.mp hstep)).1
  refine ⟨hnodes, hbelow, ?_⟩
  intro u v a ha h
  induction h with
  | refl =>
    intro hua hau
    obtain rfl := hG.antisymm hua hau
    exact ⟨.refl _, .refl _⟩
  | @tail w y hw hstep ih =>
    intro hua hay
    have hwy := hedge (mem_successors.mp hstep)
    rcases hG.comparable hay hwy.1 with haw | hwa
    · obtain ⟨hua', haw'⟩ := ih hua haw
      exact ⟨hua', haw'.tail hstep⟩
    · rcases hwy.2 ha hwa hay with rfl | rfl
      · exact ⟨hw, .edge hstep⟩
      · exact ⟨hw.tail hstep, .refl _⟩

/-- What is left keeps its data. -/
theorem Prunes.get? (h : Prunes G' G) {x : ν} (hx : x ∈ G') : G'.nodes.get? x = G.nodes.get? x := by
  obtain ⟨entry, hentry, rfl⟩ := List.mem_map.mp hx
  rw [(G'.nodes.get?_eq_some_iff _ entry.2).mpr hentry,
    (G.nodes.get?_eq_some_iff _ entry.2).mpr (h.nodes.subset hentry)]

/-- A restriction has no new vertices. -/
theorem Restricts.mem_of_mem (h : Restricts G' G P) {x : ν} (hx : x ∈ G') : x ∈ G := (h.mem.mp hx).1

/-- Restricting twice is restricting to what meets both conditions. -/
theorem Restricts.trans (h : Restricts G' G P) (h' : Restricts G'' G' Q) :
    Restricts G'' G fun x => P x ∧ Q x where
  nodes := h'.nodes.trans h.nodes
  mem := by
    intro x
    rw [h'.mem, h.mem]
    tauto
  below hu hv := (h'.below hu hv).trans (h.below (h'.mem_of_mem hu) (h'.mem_of_mem hv))

/-- A restriction depends on the condition only for the vertices of the graph. -/
theorem Restricts.congr (h : Restricts G' G P) (hPQ : ∀ x ∈ G, P x ↔ Q x) : Restricts G' G Q where
  nodes := h.nodes
  mem := by
    intro x
    rw [h.mem]
    exact and_congr_right fun hx => hPQ x hx
  below := h.below

end Inside

/-! ## Taking subtrees out -/

section RemoveNodes

variable {G : OrderedGraph ν α ε} {vs : Finset ν}

/-- Removing vertices leaves a forest. -/
theorem IsForest.removeNodesFrom (hG : G.IsForest) (vs : Finset ν) : (G.removeNodesFrom vs).IsForest where
  parent h h' := hG.parent (edge_removeNodesFrom.mp h).1 (edge_removeNodesFrom.mp h').1
  acyclic := by
    obtain ⟨rank, hrank⟩ := hG.acyclic
    exact ⟨rank, fun h => hrank (edge_removeNodesFrom.mp h).1⟩

/-- Removing vertices of a forest prunes it. -/
theorem prunes_removeNodesFrom (hG : G.IsForest) (vs : Finset ν) : Prunes (G.removeNodesFrom vs) G := by
  refine .of_edges hG List.filter_sublist fun hedge => ?_
  have hedge := (edge_removeNodesFrom.mp hedge).1
  refine ⟨.of_edge hedge, fun _ hxa hay => ?_⟩
  rcases hG.eq_or_below_parent hedge hay with rfl | hax
  · exact .inr rfl
  · exact .inl (hG.antisymm hax hxa)

/-- **Without whole subtrees the rest is as it was.** -/
theorem restricts_removeNodesFrom (hvs : ∀ {x y}, x ∈ vs → G.Edge x y → y ∈ vs) :
    Restricts (G.removeNodesFrom vs) G (· ∉ vs) where
  nodes := List.filter_sublist
  mem := mem_removeNodesFrom
  below _ hv := below_removeNodesFrom hvs (mem_removeNodesFrom.mp hv).2

end RemoveNodes

/-- **Without one node, nothing above it is above what was below it.** -/
theorem IsForest.below_removeNode {G : OrderedGraph ν α ε} (hG : G.IsForest) {u v z : ν} (hu : u ≠ z)
    (hv : v ≠ z) : (G.removeNodesFrom {z}).Below u v ↔ G.Below u v ∧ ¬ (G.Below u z ∧ G.Below z v) := by
  constructor
  · intro h
    refine ⟨(prunes_removeNodesFrom hG {z}).below h, fun hz => ?_⟩
    have huz : ¬ G.Below z u := fun hzu => hu (hG.antisymm hz.1 hzu)
    have hpath : ∀ {w}, (G.removeNodesFrom {z}).Below u w → ¬ G.Below z w := by
      intro w hw
      induction hw with
      | refl => exact huz
      | tail _ hedge ih =>
        obtain ⟨hedge, -, hy⟩ := edge_removeNodesFrom.mp (mem_successors.mp hedge)
        intro hzy
        rcases hG.eq_or_below_parent hedge hzy with heq | hzw
        · exact hy (Finset.mem_singleton.mpr heq.symm)
        · exact ih hzw
    exact hpath h hz.2
  · intro h
    obtain ⟨h, hz⟩ := h
    induction h with
    | refl => exact .refl _
    | @tail w y hw hedge ih =>
      have hedge := mem_successors.mp hedge
      have hwz : w ≠ z := by
        rintro rfl
        exact hz ⟨hw, .of_edge hedge⟩
      have hwy := ih hwz fun h => hz ⟨h.1, h.2.trans (.of_edge hedge)⟩
      refine hwy.trans (.of_edge (edge_removeNodesFrom.mpr ⟨hedge, ?_, ?_⟩))
      · exact fun h => hwz (Finset.mem_singleton.mp h)
      · exact fun h => hv (Finset.mem_singleton.mp h)

/-! ## Taking a node out and keeping children -/

/-- **A node bypassed**: it is gone, and its children in `Q` are its parent's. -/
structure Bypasses (G' G : OrderedGraph ν α ε) (z : ν) (Q : ν → Prop) : Prop where
  nodes : G'.nodes.entries = G.nodes.entries.filter (·.1 ≠ z)
  edge : ∀ {x y}, G'.Edge x y ↔ x ≠ z ∧ y ≠ z ∧ (G.Edge x y ∨ G.Edge x z ∧ G.Edge z y ∧ Q y)

namespace Bypasses

variable {G G' : OrderedGraph ν α ε} {z : ν} {Q : ν → Prop}

/-- Bypassing a vertex removes that vertex and no other. -/
theorem mem (h : Bypasses G' G z Q) {x : ν} : x ∈ G' ↔ x ∈ G ∧ x ≠ z := by
  have hkeys : G'.nodes.keys = G.nodes.keys.filter (· ≠ z) := by
    rw [Dict.keys, h.nodes, Dict.keys, List.filter_map]
    rfl
  rw [mem_iff, hkeys, List.mem_filter, decide_eq_true_eq]
  rfl

/-- Bypassing a vertex of a forest leaves a forest: its operands get the vertex above it. -/
theorem isForest (h : Bypasses G' G z Q) (hG : G.IsForest) : G'.IsForest where
  parent := by
    intro u u' v huv hu'v
    obtain ⟨hu, -, huv⟩ := h.edge.mp huv
    obtain ⟨hu', -, hu'v⟩ := h.edge.mp hu'v
    rcases huv with huv | ⟨huz, hzv, -⟩
    · rcases hu'v with hu'v | ⟨-, hzv, -⟩
      · exact hG.parent huv hu'v
      · exact absurd (hG.parent huv hzv) hu
    · rcases hu'v with hu'v | ⟨hu'z, -, -⟩
      · exact absurd (hG.parent hu'v hzv) hu'
      · exact hG.parent huz hu'z
  acyclic := by
    obtain ⟨rank, hrank⟩ := hG.acyclic
    refine ⟨rank, fun huv => ?_⟩
    rcases (h.edge.mp huv).2.2 with huv | ⟨huz, hzv, -⟩
    · exact hrank huv
    · exact (hrank huz).trans (hrank hzv)

/-- Bypassing a vertex prunes the graph, read along paths. -/
theorem prunes (h : Bypasses G' G z Q) (hG : G.IsForest) : Prunes G' G := by
  refine .of_edges hG (h.nodes ▸ List.filter_sublist) fun hedge => ?_
  rcases (h.edge.mp hedge).2.2 with hedge | ⟨hxz, hzy, -⟩
  · refine ⟨.of_edge hedge, fun _ hxa hay => ?_⟩
    rcases hG.eq_or_below_parent hedge hay with rfl | hax
    · exact .inr rfl
    · exact .inl (hG.antisymm hax hxa)
  · refine ⟨(Below.of_edge hxz).trans (.of_edge hzy), fun ha hxa hay => ?_⟩
    rcases hG.eq_or_below_parent hzy hay with rfl | haz
    · exact .inr rfl
    · rcases hG.eq_or_below_parent hxz haz with rfl | hax
      · exact absurd rfl (h.mem.mp ha).2
      · exact .inl (hG.antisymm hax hxa)

/-- **If all children are kept, all that is below one another stays so.** -/
theorem restricts (h : Bypasses G' G z Q) (hG : G.IsForest) (hQ : ∀ {c}, G.Edge z c → Q c) :
    Restricts G' G (· ≠ z) where
  nodes := (h.prunes hG).nodes
  mem := h.mem
  below := by
    intro u v hu hv
    refine ⟨(h.prunes hG).below, fun hbelow => ?_⟩
    have huz := (h.mem.mp hu).2
    -- a path to `z` is followed up to its parent
    have hpath : ∀ {w}, G.Below u w → (w ≠ z → G'.Below u w) ∧
        (w = z → ∃ p, p ≠ z ∧ G.Edge p z ∧ G'.Below u p) := by
      intro w hw
      induction hw with
      | refl => exact ⟨fun _ => .refl _, fun heq => absurd heq huz⟩
      | @tail w y _ hedge ih =>
        have hedge := mem_successors.mp hedge
        refine ⟨fun hy => ?_, ?_⟩
        · by_cases hwz : w = z
          · obtain ⟨p, hpz, hp, hup⟩ := ih.2 hwz
            rw [hwz] at hedge
            exact hup.tail (mem_successors.mpr (h.edge.mpr ⟨hpz, hy, .inr ⟨hp, hedge, hQ hedge⟩⟩))
          · exact (ih.1 hwz).tail (mem_successors.mpr (h.edge.mpr ⟨hwz, hy, .inl hedge⟩))
        · rintro rfl
          have hwy := hG.ne_of_edge hedge
          exact ⟨w, hwy, hedge, ih.1 hwy⟩
    exact (hpath hbelow).1 (h.mem.mp hv).2

end Bypasses

/-! ## Putting a subtree in the place of a larger one -/

/-- What is left of a graph when the subtree at `n` gives way to the one at `m`. -/
def spared (G : OrderedGraph ν α ε) (n m x : ν) : Prop := x ∉ G.below n ∨ x ∈ G.below m

instance (G : OrderedGraph ν α ε) (n m x : ν) : Decidable (G.spared n m x) :=
  inferInstanceAs (Decidable (_ ∨ _))

/-- A vertex is spared by a promotion exactly if, being below the vertex that is replaced, it is
below the one put there. -/
theorem spared_iff {G : OrderedGraph ν α ε} {n m x : ν} (hn : n ∈ G) (hnm : G.Below n m) :
    G.spared n m x ↔ (G.Below n x → G.Below m x) := by
  rw [spared, mem_below hn, mem_below (hnm.mem_of_left hn)]
  exact or_iff_not_imp_left.trans (by rw [not_not])

/-- **A subtree promoted**: what was below `n` and not below `m` is gone, and `m` is the last child of
what `n` was a child of. -/
structure Promotes [Inhabited ε] (G' G : OrderedGraph ν α ε) (n m : ν) : Prop where
  nodes : G'.nodes.entries = G.nodes.entries.filter fun e => G.spared n m e.1
  edges : G'.edges.entries =
    (G.edges.entries.filter fun e => G.spared n m e.1.1 ∧ G.spared n m e.1.2) ++
      (G.predecessors n).map fun p => ((p, m), default)

namespace Promotes

variable [Inhabited ε] {G G' : OrderedGraph ν α ε} {n m x y : ν}

/-- A promotion keeps the vertices that are spared. -/
theorem mem (h : Promotes G' G n m) : x ∈ G' ↔ x ∈ G ∧ G.spared n m x := by
  have hkeys : G'.nodes.keys = G.nodes.keys.filter fun x => G.spared n m x := by
    rw [Dict.keys, h.nodes, Dict.keys, List.filter_map]
    rfl
  rw [mem_iff, hkeys, List.mem_filter, decide_eq_true_eq]
  rfl

/-- The edges after a promotion: those between spared vertices, and those from above the replaced
vertex to the one put in its place. -/
theorem edge (h : Promotes G' G n m) :
    G'.Edge x y ↔ G.Edge x y ∧ G.spared n m x ∧ G.spared n m y ∨ G.Edge x n ∧ y = m := by
  have hkeys : G'.edges.keys = (G.edges.keys.filter fun e => G.spared n m e.1 ∧ G.spared n m e.2) ++
      (G.predecessors n).map fun p => (p, m) := by
    rw [Dict.keys, h.edges, List.map_append, List.map_map, Dict.keys, List.filter_map]
    rfl
  rw [Edge, hkeys, List.mem_append, List.mem_filter, List.mem_map, decide_eq_true_eq]
  refine or_congr Iff.rfl ?_
  constructor
  · intro h
    obtain ⟨p, hp, heq⟩ := h
    obtain ⟨rfl, rfl⟩ := Prod.mk.inj heq
    exact ⟨mem_predecessors.mp hp, rfl⟩
  · intro h
    obtain ⟨hx, rfl⟩ := h
    exact ⟨x, mem_predecessors.mpr hx, rfl⟩

section Order

variable (hG : G.IsForest) (hn : n ∈ G) (hnm : G.Below n m)

include hG hn hnm

/-- A promotion prunes the graph. -/
theorem prunes (h : Promotes G' G n m) : Prunes G' G := by
  refine .of_edges hG (h.nodes ▸ List.filter_sublist) fun hedge => ?_
  rcases h.edge.mp hedge with ⟨hedge, -⟩ | ⟨hxn, rfl⟩
  · refine ⟨.of_edge hedge, fun _ hxa hay => ?_⟩
    rcases hG.eq_or_below_parent hedge hay with rfl | hax
    · exact .inr rfl
    · exact .inl (hG.antisymm hax hxa)
  · refine ⟨(Below.of_edge hxn).trans hnm, fun ha hxa hay => ?_⟩
    -- what is left between `n` and the promoted node is that node
    have hna : ∀ {a}, a ∈ G' → G.Below n a → G.Below a _ → a = _ := fun ha hna ham =>
      hG.antisymm ham ((spared_iff hn hnm).mp (h.mem.mp ha).2 hna)
    rcases hG.comparable hay hnm with han | hna'
    · rcases hG.eq_or_below_parent hxn han with rfl | hax
      · exact .inr (hna ha (.refl _) hay)
      · exact .inl (hG.antisymm hax hxa)
    · exact .inr (hna ha hna' hay)

/-- A promotion in a forest leaves a forest. -/
theorem isForest (h : Promotes G' G n m) (hne : n ≠ m) : G'.IsForest where
  parent := by
    -- what is left is not the parent of `m`, which is below `n` and not below `m`
    have hother : ∀ {u v}, G.Edge u v → G.spared n m u → G.spared n m v → v ≠ m := by
      intro u v hedge hu _ hv
      rw [hv] at hedge
      have hnu := (hG.eq_or_below_parent hedge hnm).resolve_left hne
      exact hG.not_below_of_edge hedge ((spared_iff hn hnm).mp hu hnu)
    intro u u' v huv hu'v
    rcases h.edge.mp huv with ⟨huv, hu, hv⟩ | ⟨hun, hv⟩
    · rcases h.edge.mp hu'v with ⟨hu'v, -⟩ | ⟨-, hv'⟩
      · exact hG.parent huv hu'v
      · exact absurd hv' (hother huv hu hv)
    · rcases h.edge.mp hu'v with ⟨hu'v, hu', hv'⟩ | ⟨hu'n, -⟩
      · exact absurd hv (hother hu'v hu' hv')
      · exact hG.parent hun hu'n
  acyclic := by
    obtain ⟨rank, hrank⟩ := hG.acyclic
    have hle := Below.rank_le hrank hnm
    refine ⟨rank, fun huv => ?_⟩
    rcases h.edge.mp huv with ⟨huv, -⟩ | ⟨hun, rfl⟩
    · exact hrank huv
    · exact (hrank hun).trans_le hle

/-- **What is left is below one another as it was.** -/
theorem restricts (h : Promotes G' G n m) : Restricts G' G fun x => G.Below n x → G.Below m x where
  nodes := (h.prunes hG hn hnm).nodes
  mem := by
    intro x
    rw [h.mem, spared_iff hn hnm]
  below := by
    intro u v hu hv
    refine ⟨(h.prunes hG hn hnm).below, fun hbelow => ?_⟩
    have hspared := (spared_iff (x := u) hn hnm).mp (h.mem.mp hu).2
    -- a path that stays out of the subtree at `n`, and one inside the subtree at `m`
    have houtside : ∀ {w}, G.Below u w → ¬ G.Below n w → G'.Below u w := by
      intro w hw
      induction hw with
      | refl => exact fun _ => .refl _
      | @tail w y _ hedge ih =>
        intro hy
        have hw : ¬ G.Below n w := fun hw => hy (hw.tail hedge)
        refine (ih hw).tail (mem_successors.mpr (h.edge.mpr (.inl ⟨mem_successors.mp hedge, ?_, ?_⟩)))
        · exact (spared_iff hn hnm).mpr fun h => absurd h hw
        · exact (spared_iff hn hnm).mpr fun h => absurd h hy
    have hinside : ∀ {a w}, G.Below m a → G.Below a w → G'.Below a w := by
      intro a w ha hw
      induction hw with
      | refl => exact .refl _
      | @tail w y hw hedge ih =>
        refine ih.tail (mem_successors.mpr (h.edge.mpr (.inl ⟨mem_successors.mp hedge, ?_, ?_⟩)))
        · exact (spared_iff hn hnm).mpr fun _ => ha.trans hw
        · exact (spared_iff hn hnm).mpr fun _ => (ha.trans hw).tail hedge
    by_cases hnv : G.Below n v
    · have hmv := (spared_iff hn hnm).mp (h.mem.mp hv).2 hnv
      by_cases hnu : G.Below n u
      · exact hinside (hspared hnu) hbelow
      · rcases (hG.comparable hbelow hnv).resolve_right hnu |>.eq_or_parent with rfl | ⟨p, hup, hpn⟩
        · exact absurd (.refl _) hnu
        · have hp : ¬ G.Below n p := hG.not_below_of_edge hpn
          have hpm : G'.Edge p m := h.edge.mpr (.inr ⟨hpn, rfl⟩)
          exact ((houtside hup hp).tail (mem_successors.mpr hpm)).trans (hinside (.refl _) hmv)
    · exact houtside hbelow hnv

end Order

/-- Taking a node out promotes its only child. -/
theorem of_only_child (hG : G.IsForest) (hedge : G.Edge n m) (honly : ∀ {c}, G.Edge n c → c = m)
    (hnodes : G'.nodes.entries = G.nodes.entries.filter (·.1 ≠ n))
    (hedges : G'.edges.entries = (G.edges.entries.filter fun e => e.1.1 ≠ n ∧ e.1.2 ≠ n) ++
      (G.predecessors n).map fun p => ((p, m), default)) : Promotes G' G n m := by
  have hspared : ∀ {x}, G.spared n m x ↔ x ≠ n := by
    intro x
    rw [spared_iff hedge.left (.of_edge hedge)]
    constructor
    · rintro h rfl
      exact hG.not_below_of_edge hedge (h (.refl _))
    · intro hx hnx
      obtain ⟨c, hc, hcx⟩ := hnx.eq_or_child.resolve_left (Ne.symm hx)
      exact honly hc ▸ hcx
  refine ⟨?_, ?_⟩
  · rw [hnodes]
    apply List.filter_congr
    intro entry _
    exact decide_eq_decide.mpr hspared.symm
  · rw [hedges]
    apply congrArg (· ++ _)
    apply List.filter_congr
    intro entry _
    exact decide_eq_decide.mpr (and_congr hspared hspared).symm

/-- **Promoted twice**: from under `e`, and with `e` from under `n`. -/
theorem trans {G₁ G₂ : OrderedGraph ν α ε} {e : ν} (h₁ : Promotes G₁ G e m) (h₂ : Promotes G₂ G₁ n m)
    (hG : G.IsForest) (hn : n ∈ G) (hne : G.Below n e) (hem : G.Below e m) (hne' : n ≠ e) :
    Promotes G₂ G n m := by
  have he : e ∈ G := hne.mem_of_left hn
  have hout : ∀ {x}, G.Below x n → ¬ G.Below e x := fun hx hex =>
    hne' (hG.antisymm hne (hex.trans hx))
  have hspared : ∀ {x}, x ∈ G → ¬ G.Below e x → G.spared e m x := fun _ hx =>
    (spared_iff he hem).mpr fun h => absurd h hx
  have hr₁ := h₁.restricts hG he hem
  have hn₁ : n ∈ G₁ := h₁.mem.mpr ⟨hn, hspared hn (hout (.refl _))⟩
  have hm₁ : m ∈ G₁ := h₁.mem.mpr ⟨hem.mem_of_left he, (spared_iff he hem).mpr fun _ => .refl _⟩
  have hnm₁ : G₁.Below n m := (hr₁.below hn₁ hm₁).mpr (hne.trans hem)
  -- what is spared twice is what is spared
  have hboth : ∀ {x}, x ∈ G → (G.spared e m x ∧ G₁.spared n m x ↔ G.spared n m x) := by
    intro x hx
    rw [spared_iff hn (hne.trans hem)]
    constructor
    · intro h hnx
      have hx₁ : x ∈ G₁ := h₁.mem.mpr ⟨hx, h.1⟩
      exact (hr₁.below hm₁ hx₁).mp ((spared_iff hn₁ hnm₁).mp h.2 ((hr₁.below hn₁ hx₁).mpr hnx))
    · intro h
      have hx₁ : G.spared e m x := (spared_iff he hem).mpr fun hex => h (hne.trans hex)
      have hx₁' : x ∈ G₁ := h₁.mem.mpr ⟨hx, hx₁⟩
      exact ⟨hx₁, (spared_iff hn₁ hnm₁).mpr fun hnx =>
        (hr₁.below hm₁ hx₁').mpr (h ((hr₁.below hn₁ hx₁').mp hnx))⟩
  refine ⟨?_, ?_⟩
  · rw [h₂.nodes, h₁.nodes, List.filter_filter]
    apply List.filter_congr
    intro entry hentry
    rw [← Bool.decide_and, decide_eq_decide, and_comm]
    exact hboth (List.mem_map_of_mem hentry)
  · have hpreds : G₁.predecessors n = G.predecessors n := by
      have hkeys : G₁.edges.keys = (G.edges.keys.filter fun x => G.spared e m x.1 ∧ G.spared e m x.2) ++
          (G.predecessors e).map fun p => (p, m) := by
        rw [Dict.keys, h₁.edges, List.map_append, List.map_map, Dict.keys, List.filter_map]
        rfl
      have hmn : m ≠ n := by
        rintro rfl
        exact hne' (hG.antisymm hne hem)
      have hnew : ((G.predecessors e).map fun p => (p, m)).filter (fun x => x.2 = n) = [] := by
        apply List.filter_eq_nil_iff.mpr
        intro x hx
        obtain ⟨p, -, rfl⟩ := List.mem_map.mp hx
        simpa using hmn
      rw [predecessors, hkeys, List.filter_append, hnew, List.append_nil, List.filter_filter, predecessors]
      apply congrArg
      apply List.filter_congr
      intro x hx
      have hedge : G.Edge x.1 x.2 := hx
      by_cases hxn : x.2 = n
      · have hleft : G.spared e m x.1 := hspared hedge.left (hout (hxn ▸ .of_edge hedge))
        have hright : G.spared e m x.2 := hspared hedge.right (hout (hxn ▸ .refl _))
        simp [hxn, hleft, hxn ▸ hright]
      · simp [hxn]
    have hgone : ((G.predecessors e).map fun p => (((p, m), default) : (ν × ν) × ε)).filter
        (fun x => G₁.spared n m x.1.1 ∧ G₁.spared n m x.1.2) = [] := by
      apply List.filter_eq_nil_iff.mpr
      intro x hx
      obtain ⟨p, hp, rfl⟩ := List.mem_map.mp hx
      have hedge := mem_predecessors.mp hp
      have hnp : G.Below n p := (hG.eq_or_below_parent hedge hne).resolve_left hne'
      have hep : ¬ G.Below e p := hG.not_below_of_edge hedge
      have hp₁ : p ∈ G₁ := h₁.mem.mpr ⟨hedge.left, hspared hedge.left hep⟩
      have hnot : ¬ G₁.spared n m p := by
        rw [spared_iff hn₁ hnm₁, hr₁.below hn₁ hp₁, hr₁.below hm₁ hp₁]
        exact fun h => hep (hem.trans (h hnp))
      simp [hnot]
    rw [h₂.edges, h₁.edges, List.filter_append, hgone, List.append_nil, hpreds, List.filter_filter]
    apply congrArg (· ++ _)
    apply List.filter_congr
    intro entry hentry
    obtain ⟨hleft, hright⟩ := G.ends entry.1 (List.mem_map_of_mem hentry)
    rw [← Bool.decide_and, decide_eq_decide, ← hboth hleft, ← hboth hright]
    tauto

/-- Subtrees that would give way anyway can be taken out before. -/
theorem of_removeNodesFrom {vs : Finset ν} (h : Promotes G' (G.removeNodesFrom vs) n m) (hn : n ∈ G)
    (hnm : G.Below n m) (hvs : ∀ {x y}, x ∈ vs → G.Edge x y → y ∈ vs)
    (hinside : ∀ {x}, x ∈ vs → G.Below n x ∧ ¬ G.Below m x) (hnvs : n ∉ vs) : Promotes G' G n m := by
  have hmvs : m ∉ vs := fun hm => (hinside hm).2 (.refl _)
  have hn' : n ∈ G.removeNodesFrom vs := mem_removeNodesFrom.mpr ⟨hn, hnvs⟩
  have hnm' : (G.removeNodesFrom vs).Below n m := (below_removeNodesFrom hvs hmvs).mpr hnm
  have hboth : ∀ {x}, x ∉ vs ∧ (G.removeNodesFrom vs).spared n m x ↔ G.spared n m x := by
    intro x
    rw [spared_iff hn hnm]
    constructor
    · intro h hnx
      have hx := (spared_iff hn' hnm').mp h.2 ((below_removeNodesFrom hvs h.1).mpr hnx)
      exact (below_removeNodesFrom hvs h.1).mp hx
    · intro h
      have hx : x ∉ vs := fun hx => (hinside hx).2 (h (hinside hx).1)
      exact ⟨hx, (spared_iff hn' hnm').mpr fun hnx => (below_removeNodesFrom hvs hx).mpr
        (h ((below_removeNodesFrom hvs hx).mp hnx))⟩
  have hpreds : (G.removeNodesFrom vs).predecessors n = G.predecessors n := by
    rw [predecessors, removeNodesFrom, Dict.keys_keep, List.filter_filter, predecessors]
    apply congrArg
    apply List.filter_congr
    intro x hx
    by_cases hxn : x.2 = n
    · have hleft : x.1 ∉ vs := fun h => hnvs (hxn ▸ hvs h hx)
      simp [hxn, hleft, hnvs]
    · simp [hxn]
  refine ⟨?_, ?_⟩
  · rw [h.nodes, entries_removeNodesFrom, List.filter_filter]
    apply List.filter_congr
    intro entry _
    rw [← Bool.decide_and, decide_eq_decide, and_comm]
    exact hboth
  · rw [h.edges, edges_removeNodesFrom, List.filter_filter, hpreds]
    apply congrArg (· ++ _)
    apply List.filter_congr
    intro entry _
    rw [← Bool.decide_and, decide_eq_decide, ← hboth (x := entry.1.1), ← hboth (x := entry.1.2)]
    tauto

end Promotes

/-! ## Nodes numbered subtree by subtree -/

/-- **Where two paths part.** -/
theorem Below.parts {G : OrderedGraph ν α ε} {p a b : ν} (ha : G.Below p a) (hb : G.Below p b) (hab : ¬ G.Below a b)
    (hba : ¬ G.Below b a) : ∃ q c d, G.Edge q c ∧ G.Edge q d ∧ c ≠ d ∧ G.Below c a ∧ G.Below d b := by
  induction ha using Relation.ReflTransGen.head_induction_on with
  | refl => exact absurd hb hab
  | @head p c hpc hca ih =>
    by_cases hcb : G.Below c b
    · exact ih hcb
    · rcases hb.eq_or_child with rfl | ⟨d, hpd, hdb⟩
      · exact absurd (Relation.ReflTransGen.head hpc hca) hba
      · refine ⟨p, c, d, mem_successors.mp hpc, hpd, ?_, hca, hdb⟩
        rintro rfl
        exact hcb hdb

section Laid

variable [LinearOrder ν] {G G' : OrderedGraph ν α ε}

/-- **Laid out**: what is below a child comes before what is below a later one. -/
def Laid (G : OrderedGraph ν α ε) : Prop :=
  ∀ {p a b x y}, G.Edge p a → G.Edge p b → a < b → G.Below a x → G.Below b y → x < y

/-- The layout can be checked edge by edge. -/
instance (G : OrderedGraph ν α ε) : Decidable G.Laid :=
  decidable_of_iff (∀ e ∈ G.edges.keys, ∀ e' ∈ G.edges.keys, e.1 = e'.1 → e.2 < e'.2 →
      ∀ x ∈ G.below e.2, ∀ y ∈ G.below e'.2, x < y) <| by
    constructor
    · intro h p a b x y hpa hpb hlt hax hby
      exact h (p, a) hpa (p, b) hpb rfl hlt x ((mem_below hpa.right).mpr hax) y
        ((mem_below hpb.right).mpr hby)
    · intro hL e he e' he' heq hlt x hx y hy
      have hedge : G.Edge e.1 e.2 := he
      have hedge' : G.Edge e.1 e'.2 := heq ▸ he'
      exact hL hedge hedge' hlt ((mem_below hedge.right).mp hx) ((mem_below hedge'.right).mp hy)

/-- **Pruning keeps the layout.** -/
theorem Prunes.laid (h : Prunes G' G) (hG' : G'.IsForest) (hL : G.Laid) : G'.Laid := by
  intro p a b x y hpa hpb hlt hax hby
  have hparts : ∀ {a b}, G'.Edge p a → G'.Edge p b → a ≠ b → ¬ G.Below a b := by
    intro a b hpa hpb hne hab
    obtain ⟨-, hab'⟩ := h.convex hpa.right (.of_edge hpb) (h.below (.of_edge hpa)) hab
    exact hG'.disjoint hpa hpb hne hab' (.refl _)
  obtain ⟨q, c, d, hqc, hqd, hne, hca, hdb⟩ := Below.parts (h.below (.of_edge hpa))
    (h.below (.of_edge hpb)) (hparts hpa hpb hlt.ne) (hparts hpb hpa hlt.ne')
  rcases lt_or_gt_of_ne hne with hcd | hdc
  · exact hL hqc hqd hcd (hca.trans (h.below hax)) (hdb.trans (h.below hby))
  · exact absurd (hL hqd hqc hdc hdb hca) (not_lt_of_gt hlt)

/-- The children in the order of their numbers. -/
def operands (G : OrderedGraph ν α ε) (p : ν) : List ν := sortedBy id (G.successors p)

variable [Inhabited ε] {n m p : ν}

omit [LinearOrder ν] in
/-- **A promoted node stands last** among the children as they came in. -/
theorem Promotes.successors (h : Promotes G' G n m) (hG : G.IsForest) (hn : n ∈ G) (hnm : G.Below n m)
    (hne : n ≠ m) (hp : G.Edge p n) : G'.successors p = (G.successors p).filter (· ≠ n) ++ [m] := by
  have hspared : ∀ {x}, G.Edge p x → (G.spared n m x ↔ x ≠ n) := by
    intro x hx
    rw [spared_iff hn hnm]
    constructor
    · rintro h rfl
      exact hne (hG.antisymm hnm (h (.refl _)))
    · exact fun hxn hnx => absurd hnx (fun hnx => hG.disjoint hp hx (Ne.symm hxn) hnx (.refl _))
  have hsparedParent : G.spared n m p :=
    (spared_iff hn hnm).mpr fun hnp => absurd hnp (hG.not_below_of_edge hp)
  have hpreds := hG.predecessors_eq hp
  have hkeys : G'.edges.keys = (G.edges.keys.filter fun e => G.spared n m e.1 ∧ G.spared n m e.2) ++
      (G.predecessors n).map fun p => (p, m) := by
    rw [Dict.keys, h.edges, List.map_append, List.map_map, Dict.keys, List.filter_map]
    rfl
  rw [OrderedGraph.successors, hkeys, hpreds, List.filter_append, List.map_append, List.filter_filter,
    OrderedGraph.successors]
  conv_rhs => rw [List.filter_map, List.filter_filter]
  congr 1
  · apply congrArg
    apply List.filter_congr
    intro e he
    by_cases hep : e.1 = p
    · have hedge : G.Edge p e.2 := hep ▸ he
      simp [hep, hsparedParent, hspared hedge]
    · simp [hep]
  · simp

/-- **Among the children by number it stands in the place of the node it is promoted for.** -/
theorem Promotes.operands (h : Promotes G' G n m) (hG : G.IsForest) (hL : G.Laid) (hn : n ∈ G)
    (hnm : G.Below n m) (hne : n ≠ m) (hp : G.Edge p n) :
    G'.operands p = (G.operands p).map fun c => if c = n then m else c := by
  have hsorted : (G.operands p).Pairwise (· < ·) := by
    refine (List.Pairwise.and (sortedBy_pairwise id (G.successors p)) ?_).imp fun h => lt_of_le_of_ne h.1 h.2
    exact (sortedBy_perm id _).nodup_iff.mpr (successors_nodup G p)
  have hmem : ∀ {c}, c ∈ G.operands p → G.Edge p c := fun hc => mem_successors.mp (mem_sortedBy.mp hc)
  apply sortedBy_eq_of_perm
  · rw [h.successors hG hn hnm hne hp]
    have hperm : (G.successors p).Perm (n :: (G.successors p).filter (· ≠ n)) := by
      apply (List.perm_ext_iff_of_nodup (successors_nodup G p) _).mpr
      · intro c
        by_cases hc : c = n
        · simp [hc, mem_successors.mpr hp]
        · simp [hc]
      · exact List.nodup_cons.mpr ⟨by simp, (successors_nodup G p).filter _⟩
    refine (List.perm_append_singleton _ _).trans ?_
    refine .trans (.of_eq ?_) ((hperm.symm.trans (sortedBy_perm id _).symm).map _)
    rw [List.map_cons, if_pos rfl, List.map_congr_left (g := id), List.map_id]
    intro c hc
    exact if_neg (by simpa using (List.mem_filter.mp hc).2)
  · rw [List.pairwise_map]
    refine hsorted.imp_of_mem fun {a b} ha hb hlt => ?_
    have hpa := hmem ha
    have hpb := hmem hb
    simp only [id]
    split
    · rename_i han
      rw [if_neg (fun hbn => hlt.ne (han.trans hbn.symm))]
      exact hL hpa hpb hlt (han ▸ hnm) (.refl _)
    · split
      · rename_i hbn
        exact hL hpa hpb hlt (.refl _) (hbn ▸ hnm)
      · exact hlt

/-- **The operands of every node that is left** are those it had, the promoted node in its place. -/
theorem Promotes.operands_of_mem (h : Promotes G' G n m) (hG : G.IsForest) (hL : G.Laid) (hn : n ∈ G)
    (hnm : G.Below n m) (hne : n ≠ m) {q : ν} (hq : q ∈ G') :
    G'.operands q = (G.operands q).map fun c => if c = n then m else c := by
  by_cases hqn : G.Edge q n
  · exact h.operands hG hL hn hnm hne hqn
  · rw [List.map_congr_left (g := id), List.map_id]
    · apply sortedBy_congr Function.injective_id
      apply (List.perm_ext_iff_of_nodup (successors_nodup G' q) (successors_nodup G q)).mpr
      intro c
      have hq' := (h.mem.mp hq).2
      rw [mem_successors, mem_successors, h.edge]
      constructor
      · rintro (⟨hqc, -⟩ | ⟨hqn', -⟩)
        · exact hqc
        · exact absurd hqn' hqn
      · intro hqc
        refine .inl ⟨hqc, hq', (spared_iff hn hnm).mpr fun hnc => ?_⟩
        rcases hG.eq_or_below_parent hqc hnc with rfl | hnq
        · exact absurd hqc hqn
        · exact ((spared_iff hn hnm).mp hq' hnq).trans (.of_edge hqc)
    · intro c hc
      refine if_neg fun hcn => hqn ?_
      exact hcn ▸ mem_successors.mp (mem_sortedBy.mp hc)

end Laid

end OrderedGraph

end Assure.Library
