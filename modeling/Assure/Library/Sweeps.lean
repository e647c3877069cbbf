import Mathlib.Data.Finset.Card
import Mathlib.Data.Finset.Image
import Mathlib.Data.Finset.Sort
import Mathlib.Logic.Relation
import Mathlib.Order.Iterate

/-!
# Sweeps along edges

A set of nodes grows along a list of edges: a sweep goes through the edges in order and adds the target of every edge
whose source is in the set by then. Sweeps are repeated a bounded number of times, or until one adds nothing.

After `n` sweeps the set has everything within `n` edges of it, and nothing that the edges do not lead to
(`mem_sweeps_of_within`, `reaches_of_mem_sweeps`). How much more it has depends on the order of the edges, and there is an
order in which it has no more than that (`exists_perm_sweeps_eq`).
-/

namespace Assure.Library

variable {α : Type*} [DecidableEq α]

/-- One sweep. -/
def sweep (edges : List (α × α)) (nodes : Finset α) : Finset α :=
  edges.foldl (fun nodes edge => if edge.1 ∈ nodes then insert edge.2 nodes else nodes) nodes

/-- At most so many sweeps, ended by one that adds nothing. -/
def sweeps (edges : List (α × α)) : Nat → Finset α → Finset α
  | 0, nodes => nodes
  | n + 1, nodes =>
    let swept := sweep edges nodes
    if swept.card = nodes.card then swept else sweeps edges n swept

/-- **Within so many edges** of a node. -/
def Within (r : α → α → Prop) : Nat → α → α → Prop
  | 0, u, v => u = v
  | n + 1, u, v => Within r n u v ∨ ∃ w, Within r n u w ∧ r w v

/-- The edges of a list. -/
def EdgeOf (edges : List (α × α)) (u v : α) : Prop := (u, v) ∈ edges

section Sweep

variable {edges : List (α × α)}

/-- A sweep takes no node out. -/
theorem subset_sweep : ∀ (edges : List (α × α)) (nodes : Finset α), nodes ⊆ sweep edges nodes
  | [], nodes => Finset.Subset.refl nodes
  | edge :: edges, nodes => by
    rw [sweep, List.foldl_cons]
    refine Finset.Subset.trans ?_ (subset_sweep edges _)
    split
    · exact Finset.subset_insert _ _
    · exact Finset.Subset.refl nodes

/-- A sweep over more nodes gives more nodes. -/
theorem sweep_mono : ∀ (edges : List (α × α)) {nodes nodes' : Finset α}, nodes ⊆ nodes' →
    sweep edges nodes ⊆ sweep edges nodes'
  | [], _, _, h => h
  | edge :: edges, nodes, nodes', h => by
    rw [sweep, sweep, List.foldl_cons, List.foldl_cons]
    refine sweep_mono edges ?_
    by_cases hin : edge.1 ∈ nodes
    · rw [if_pos hin, if_pos (h hin)]
      exact Finset.insert_subset_insert _ h
    · rw [if_neg hin]
      split
      · exact h.trans (Finset.subset_insert _ _)
      · exact h

/-- A sweep follows every edge out of the set. -/
theorem mem_sweep_of_edge : ∀ {edges : List (α × α)} {nodes : Finset α} {u v : α}, u ∈ nodes → (u, v) ∈ edges →
    v ∈ sweep edges nodes
  | edge :: edges, nodes, u, v, hu, hedge => by
    rw [sweep, List.foldl_cons]
    rcases List.mem_cons.mp hedge with rfl | hedge
    · rw [if_pos hu]
      exact subset_sweep edges _ (Finset.mem_insert_self v nodes)
    · refine mem_sweep_of_edge ?_ hedge
      split
      · exact Finset.mem_insert_of_mem hu
      · exact hu

/-- A set with no edge out of it is not added to. -/
theorem sweep_subset_of_closed (closed : α → Prop) : ∀ {edges : List (α × α)} {nodes : Finset α},
    (∀ u v, (u, v) ∈ edges → closed u → closed v) → (∀ u ∈ nodes, closed u) → ∀ u ∈ sweep edges nodes, closed u
  | [], _, _, hnodes => hnodes
  | (a, b) :: edges, nodes, hclosed, hnodes => by
    rw [sweep, List.foldl_cons]
    refine sweep_subset_of_closed closed (fun u v huv => hclosed u v (List.mem_cons_of_mem _ huv)) ?_
    intro u hu
    split at hu
    · rename_i ha
      rcases Finset.mem_insert.mp hu with rfl | hu
      · exact hclosed a u List.mem_cons_self (hnodes a ha)
      · exact hnodes u hu
    · exact hnodes u hu

/-- Edges from outside the set add nothing. -/
theorem sweep_eq_self : ∀ {edges : List (α × α)} {nodes : Finset α}, (∀ edge ∈ edges, edge.1 ∉ nodes) →
    sweep edges nodes = nodes
  | [], _, _ => rfl
  | edge :: edges, nodes, h => by
    rw [sweep, List.foldl_cons, if_neg (h edge List.mem_cons_self)]
    exact sweep_eq_self fun e he => h e (List.mem_cons_of_mem edge he)

/-- A sweep over two rows of edges is a sweep over the first and then one over the second. -/
theorem sweep_append (edges edges' : List (α × α)) (nodes : Finset α) :
    sweep (edges ++ edges') nodes = sweep edges' (sweep edges nodes) := List.foldl_append

end Sweep

/-! ## Repeated sweeps -/

section Sweeps

variable {edges : List (α × α)}

/-- Once a sweep adds nothing, no further one does. -/
theorem sweeps_eq_iterate (edges : List (α × α)) : ∀ (n : Nat) (nodes : Finset α),
    sweeps edges n nodes = (sweep edges)^[n] nodes
  | 0, _ => rfl
  | n + 1, nodes => by
    rw [sweeps, Function.iterate_succ_apply]
    split
    · rename_i hcard
      have hfix : sweep edges nodes = nodes :=
        (Finset.eq_of_subset_of_card_le (subset_sweep edges nodes) hcard.le).symm
      rw [hfix, Function.iterate_fixed hfix]
    · exact sweeps_eq_iterate edges n _

/-- Several sweeps take no node out. -/
theorem subset_sweeps (edges : List (α × α)) (n : Nat) (nodes : Finset α) : nodes ⊆ sweeps edges n nodes := by
  rw [sweeps_eq_iterate]
  induction n generalizing nodes with
  | zero => exact Finset.Subset.refl nodes
  | succ n ih =>
    rw [Function.iterate_succ_apply]
    exact (subset_sweep edges nodes).trans (ih _)

/-- **Everything within so many edges is swept up.** -/
theorem mem_sweeps_of_within {n : Nat} {nodes : Finset α} {u v : α} (hu : u ∈ nodes) (h : Within (EdgeOf edges) n u v) :
    v ∈ sweeps edges n nodes := by
  rw [sweeps_eq_iterate]
  induction n generalizing v with
  | zero =>
    obtain rfl : u = v := h
    exact hu
  | succ n ih =>
    rw [Function.iterate_succ_apply']
    rcases h with h | ⟨w, h, hedge⟩
    · exact subset_sweep edges _ (ih h)
    · exact mem_sweep_of_edge (ih h) hedge

/-- **Nothing else than what the edges lead to is swept up.** -/
theorem reaches_of_mem_sweeps {n : Nat} {nodes : Finset α} {v : α} (h : v ∈ sweeps edges n nodes) :
    ∃ u ∈ nodes, Relation.ReflTransGen (EdgeOf edges) u v := by
  rw [sweeps_eq_iterate] at h
  induction n generalizing v with
  | zero => exact ⟨v, h, .refl⟩
  | succ n ih =>
    rw [Function.iterate_succ_apply'] at h
    refine sweep_subset_of_closed (fun v => ∃ u ∈ nodes, Relation.ReflTransGen (EdgeOf edges) u v) ?_ ?_ v h
    · rintro v w hedge ⟨u, hu, hreach⟩
      exact ⟨u, hu, hreach.tail hedge⟩
    · exact fun v hv => ih hv

/-- A set that a sweep leaves as it is has everything that the edges lead to. -/
theorem mem_of_reaches {nodes : Finset α} (hfix : sweep edges nodes ⊆ nodes) {u v : α} (hu : u ∈ nodes)
    (h : Relation.ReflTransGen (EdgeOf edges) u v) : v ∈ nodes := by
  induction h with
  | refl => exact hu
  | tail _ hedge ih => exact hfix (mem_sweep_of_edge ih hedge)

/-- **With as many sweeps as there can be nodes to add, everything is swept up.** -/
theorem sweep_sweeps_subset {n : Nat} {nodes all : Finset α} (hnodes : nodes ⊆ all)
    (hedges : ∀ u v, (u, v) ∈ edges → v ∈ all) (hn : all.card ≤ nodes.card + n) :
    sweep edges (sweeps edges n nodes) ⊆ sweeps edges n nodes := by
  have hall : ∀ {nodes : Finset α}, nodes ⊆ all → sweep edges nodes ⊆ all := by
    intro nodes hnodes v hv
    exact sweep_subset_of_closed (· ∈ all) (fun u v hedge _ => hedges u v hedge) hnodes v hv
  induction n generalizing nodes with
  | zero =>
    rw [sweeps, Finset.eq_of_subset_of_card_le hnodes hn]
    exact hall (Finset.Subset.refl all)
  | succ n ih =>
    rw [sweeps]
    split
    · rename_i hcard
      have hfix : sweep edges nodes = nodes :=
        (Finset.eq_of_subset_of_card_le (subset_sweep edges nodes) hcard.le).symm
      rw [hfix, hfix]
    · rename_i hcard
      have hle := Finset.card_le_card (subset_sweep edges nodes)
      exact ih (hall hnodes) (by omega)

end Sweeps

/-! ## The slowest order

Edges that lead both ways come in pairs, which may be put in any order. -/

section Order

variable {γ : Type*} {edgesOf : γ → List (α × α)} {nodes : Finset α}

/-- What is within so many edges of a set. -/
noncomputable def ball (edges : List (α × α)) (nodes : Finset α) : Nat → Finset α
  | 0 => nodes
  | n + 1 => ball edges nodes n ∪ ((edges.filter fun edge => edge.1 ∈ ball edges nodes n).map Prod.snd).toFinset

/-- A ball holds what is within its distance of some node. -/
theorem mem_ball {edges : List (α × α)} : ∀ {n : Nat} {v : α},
    v ∈ ball edges nodes n ↔ ∃ u ∈ nodes, Within (EdgeOf edges) n u v
  | 0, v => ⟨fun h => ⟨v, h, rfl⟩, fun ⟨_, hu, h⟩ => (show _ = v from h) ▸ hu⟩
  | n + 1, v => by
    rw [ball, Finset.mem_union, List.mem_toFinset, List.mem_map, mem_ball]
    constructor
    · rintro (⟨u, hu, h⟩ | ⟨⟨w, _⟩, hin, rfl⟩)
      · exact ⟨u, hu, .inl h⟩
      · obtain ⟨hedge, hw⟩ := List.mem_filter.mp hin
        obtain ⟨u, hu, h⟩ := mem_ball.mp (of_decide_eq_true hw)
        exact ⟨u, hu, .inr ⟨w, h, hedge⟩⟩
    · rintro ⟨u, hu, h | ⟨w, h, hedge⟩⟩
      · exact .inl ⟨u, hu, h⟩
      · exact .inr ⟨(w, v), List.mem_filter.mpr ⟨hedge, decide_eq_true (mem_ball.mpr ⟨u, hu, h⟩)⟩, rfl⟩

/-- A larger distance gives a larger ball. -/
theorem ball_mono (edges : List (α × α)) (nodes : Finset α) : Monotone (ball edges nodes) :=
  monotone_nat_of_le_succ fun _ => Finset.subset_union_left

/-- The first of so many balls that has a node, or one more than that. -/
noncomputable def rank (edges : List (α × α)) (nodes : Finset α) (bound : Nat) (u : α) : Nat :=
  ((Finset.range (bound + 1)).filter fun k => u ∉ ball edges nodes k).card

/-- The rank of a node is the least distance whose ball it lies in. -/
theorem rank_le_iff {edges : List (α × α)} {bound n : Nat} (hn : n ≤ bound) {u : α} :
    rank edges nodes bound u ≤ n ↔ u ∈ ball edges nodes n := by
  constructor
  · intro hle
    by_contra hout
    have hsub : Finset.range (n + 1) ⊆ (Finset.range (bound + 1)).filter fun k => u ∉ ball edges nodes k := by
      intro k hk
      have hk := Finset.mem_range.mp hk
      refine Finset.mem_filter.mpr ⟨Finset.mem_range.mpr (by omega), fun hin => hout ?_⟩
      exact ball_mono edges nodes (Nat.le_of_lt_succ hk) hin
    have hcard := Finset.card_le_card hsub
    rw [Finset.card_range] at hcard
    rw [rank] at hle
    omega
  · intro hin
    have hsub : ((Finset.range (bound + 1)).filter fun k => u ∉ ball edges nodes k) ⊆ Finset.range n := by
      intro k hk
      obtain ⟨-, hout⟩ := Finset.mem_filter.mp hk
      refine Finset.mem_range.mpr (Nat.lt_of_not_le fun hle => hout ?_)
      exact ball_mono edges nodes hle hin
    calc rank edges nodes bound u ≤ (Finset.range n).card := Finset.card_le_card hsub
      _ = n := Finset.card_range n

/-- Items in descending order of a key: those above a bound add nothing, and the others nothing beyond a set. -/
theorem sweep_subset_of_descending (key : γ → Nat) (n : Nat) (reached : α → Prop) : ∀ {items : List γ},
    items.Pairwise (fun c d => key d ≤ key c) → (∀ u ∈ nodes, reached u) →
      (∀ c ∈ items, key c ≤ n → ∀ edge ∈ edgesOf c, reached edge.2) →
      (∀ c ∈ items, n < key c → ∀ edge ∈ edgesOf c, edge.1 ∉ nodes) →
      ∀ v ∈ sweep (items.flatMap edgesOf) nodes, reached v
  | [], _, hsub, _, _ => hsub
  | c :: items, hsorted, hsub, hlow, hhigh => by
    obtain ⟨hfirst, hrest⟩ := List.pairwise_cons.mp hsorted
    rcases Nat.lt_or_ge n (key c) with hlt | hge
    · rw [List.flatMap_cons, sweep_append, sweep_eq_self (hhigh c List.mem_cons_self hlt)]
      exact sweep_subset_of_descending key n reached hrest hsub (fun d hd => hlow d (List.mem_cons_of_mem c hd))
        fun d hd => hhigh d (List.mem_cons_of_mem c hd)
    · refine sweep_subset_of_closed reached (fun u w hedge _ => ?_) hsub
      obtain ⟨d, hd, hedge⟩ := List.mem_flatMap.mp hedge
      have hle : key d ≤ n := by
        rcases List.mem_cons.mp hd with rfl | hd
        · exact hge
        · exact (hfirst d hd).trans hge
      exact hlow d hd hle (u, w) hedge

/-- The edges of a pair, both ways. -/
def bothWays (pair : α × α) : List (α × α) := [(pair.1, pair.2), (pair.2, pair.1)]

/-- **There is an order of the pairs in which the sweeps go no further than they must.** -/
theorem exists_perm_sweeps_eq (pairs : List (α × α)) (nodes : Finset α) (bound : Nat) :
    ∃ order : List (α × α), order.Perm pairs ∧
      sweeps (order.flatMap bothWays) bound nodes = ball (pairs.flatMap bothWays) nodes bound := by
  set edges := pairs.flatMap bothWays with hedges
  -- pairs that are further away come first
  let key : α × α → Nat := fun pair => min (rank edges nodes bound pair.1) (rank edges nodes bound pair.2)
  have htotal : Std.Total fun p q : α × α => key q ≤ key p := ⟨fun p q => Nat.le_total (key q) (key p)⟩
  have htrans : IsTrans (α × α) fun p q => key q ≤ key p := ⟨fun _ _ _ h h' => h'.trans h⟩
  let order := pairs.insertionSort fun p q => key q ≤ key p
  have hperm : order.Perm pairs := pairs.perm_insertionSort _
  have hsorted : order.Pairwise fun p q => key q ≤ key p := pairs.pairwise_insertionSort _
  have hedge : ∀ {p : α × α}, p ∈ order → (p.1, p.2) ∈ edges ∧ (p.2, p.1) ∈ edges := by
    intro p hp
    have hp := hperm.mem_iff.mp hp
    exact ⟨List.mem_flatMap.mpr ⟨p, hp, List.mem_cons_self⟩,
      List.mem_flatMap.mpr ⟨p, hp, List.mem_cons_of_mem _ List.mem_cons_self⟩⟩
  have hnext : ∀ {n u v}, (u, v) ∈ edges → u ∈ ball edges nodes n → v ∈ ball edges nodes (n + 1) := by
    intro n u v huv hu
    obtain ⟨w, hw, h⟩ := mem_ball.mp hu
    exact mem_ball.mpr ⟨w, hw, .inr ⟨u, h, huv⟩⟩
  have hstep : ∀ n, n ≤ bound → sweep (order.flatMap bothWays) (ball edges nodes n) = ball edges nodes (n + 1) := by
    intro n hn
    have hup : ball edges nodes n ⊆ ball edges nodes (n + 1) := ball_mono edges nodes (Nat.le_succ n)
    refine Finset.Subset.antisymm (sweep_subset_of_descending key n (· ∈ ball edges nodes (n + 1)) hsorted hup ?_ ?_) ?_
    · intro p hp hkey edge hin
      have hends : p.1 ∈ ball edges nodes (n + 1) ∧ p.2 ∈ ball edges nodes (n + 1) := by
        rcases min_le_iff.mp hkey with hle | hle
        · have hin := (rank_le_iff hn).mp hle
          exact ⟨hup hin, hnext (hedge hp).1 hin⟩
        · have hin := (rank_le_iff hn).mp hle
          exact ⟨hnext (hedge hp).2 hin, hup hin⟩
      rcases List.mem_pair.mp hin with rfl | rfl
      · exact hends.2
      · exact hends.1
    · intro p hp hkey edge hin hsource
      obtain ⟨hone, htwo⟩ := lt_min_iff.mp hkey
      have hfar : p.1 ∉ ball edges nodes n ∧ p.2 ∉ ball edges nodes n :=
        ⟨fun h => absurd ((rank_le_iff hn).mpr h) (Nat.not_le.mpr hone),
          fun h => absurd ((rank_le_iff hn).mpr h) (Nat.not_le.mpr htwo)⟩
      rcases List.mem_pair.mp hin with rfl | rfl
      · exact hfar.1 hsource
      · exact hfar.2 hsource
    · intro v hv
      obtain ⟨u, hu, h | ⟨w, h, hwv⟩⟩ := mem_ball.mp hv
      · exact subset_sweep _ _ (mem_ball.mpr ⟨u, hu, h⟩)
      · refine mem_sweep_of_edge (mem_ball.mpr ⟨u, hu, h⟩) ?_
        exact (hperm.flatMap_right bothWays).mem_iff.mpr hwv
  refine ⟨order, hperm, ?_⟩
  rw [sweeps_eq_iterate]
  have hiterate : ∀ n, n ≤ bound → (sweep (order.flatMap bothWays))^[n] nodes = ball edges nodes n := by
    intro n
    induction n with
    | zero => exact fun _ => rfl
    | succ n ih =>
      intro hn
      rw [Function.iterate_succ_apply', ih (Nat.le_of_succ_le hn), hstep n (Nat.le_of_succ_le hn)]
  exact hiterate bound (Nat.le_refl bound)

end Order

end Assure.Library
