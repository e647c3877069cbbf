import Assure.Library.Tarjan
import Mathlib.Tactic.Common

/-!
# Tarjan's search keeps its invariant

One lemma per operation of the machine: entering a node (`Inv.enter`), lowering a low-link
(`Inv.lower`), striking a neighbour off a frame (`Inv.strike`), and closing a node, which either
retires it to the node it hangs from (`Inv.retire`) or hands out a component (`Inv.handOut`).
`Inv.step` assembles them, and `Inv.steps` is the run lemma.
-/

namespace Assure.Library.Tarjan

open Assure.Library

variable {α : Type*} {adj : α → List α} {emit : List α → List α} {fs : List (Frame α)}
  {s s' : Search α}

/-- Before anything is visited the invariant holds. -/
theorem Inv.empty : Inv adj [] (Search.empty : Search α) := by
  constructor <;> simp [Search.empty, CalleesFirst.nil]

namespace Inv

/-- What is on the stack has been visited and has its index. -/
theorem visited (h : Inv adj fs s) {v : α} (hv : v ∈ s.stack) : s.indexMap v = some (s.idx v) := by
  obtain ⟨i, hi⟩ := Option.ne_none_iff_exists'.mp ((h.entered_iff v).mpr (.inl hv))
  rw [hi, Search.idx_of_some hi]

/-- Vertices of the stack are told apart by their indexes. -/
theorem idx_inj (h : Inv adj fs s) {u v : α} (hu : u ∈ s.stack) (hv : v ∈ s.stack)
    (huv : s.idx u = s.idx v) : u = v :=
  h.index_inj u v (s.idx v) (huv ▸ h.visited hu) (h.visited hv)

/-- A vertex that was not visited is not on the stack. -/
theorem fresh_not_stack (h : Inv adj fs s) {v : α} (fresh : s.indexMap v = none) : v ∉ s.stack :=
  fun hv => (h.entered_iff v).mpr (.inl hv) fresh

/-- It is in no component that was handed out either. -/
theorem fresh_not_done (h : Inv adj fs s) {v : α} (fresh : s.indexMap v = none) :
    v ∉ s.components.flatten := fun hv => (h.entered_iff v).mpr (.inr hv) fresh

/-- It is none of those on the stack. -/
theorem ne_of_fresh (h : Inv adj fs s) {u v : α} (fresh : s.indexMap v = none) (hu : u ∈ s.stack) :
    u ≠ v := fun huv => h.fresh_not_stack fresh (huv ▸ hu)

/-- With no open node the stack is empty: a closed node on it would hang from an open one. -/
theorem stack_nil (h : Inv adj [] s) : s.stack = [] := by
  by_contra hne
  obtain ⟨w, hw⟩ := List.exists_mem_of_ne_nil _ hne
  obtain ⟨f, hf, -⟩ := h.owner w hw (by simp)
  simp at hf

/-- The open nodes under the innermost one have lower indices. -/
theorem below_top {v : α} {ws : List α} (h : Inv adj ((v, ws) :: fs) s) :
    ∀ f ∈ fs, s.idx f.1 < s.idx v := (List.pairwise_cons.mp h.frames_desc).1

/-- **Striking a neighbour off** a frame, once the edge to it leads out of the stack or not below
the low-link. -/
theorem strike {v w : α} {ws : List α} (fs₁ : List (Frame α))
    (h : Inv adj (fs₁ ++ (v, w :: ws) :: fs) s)
    (hw : w ∈ s.components.flatten ∨ (w ∈ s.stack ∧ s.lowlinks v ≤ s.idx w)) :
    Inv adj (fs₁ ++ (v, ws) :: fs) s := by
  have hmap : (fs₁ ++ (v, ws) :: fs).map Prod.fst = (fs₁ ++ (v, w :: ws) :: fs).map Prod.fst := by simp
  -- a frame of the new list has a frame of the old one with its node, and the other way round
  have hnew : ∀ f ∈ fs₁ ++ (v, ws) :: fs, ∃ g ∈ fs₁ ++ (v, w :: ws) :: fs, g.1 = f.1 ∧ f.2 ⊆ g.2 := by
    intro f hf
    simp only [List.mem_append, List.mem_cons] at hf
    rcases hf with hf | rfl | hf
    · exact ⟨f, by simp [hf], rfl, List.Subset.refl _⟩
    · exact ⟨(v, w :: ws), by simp, rfl, List.subset_cons_self _ _⟩
    · exact ⟨f, by simp [hf], rfl, List.Subset.refl _⟩
  have hold : ∀ g ∈ fs₁ ++ (v, w :: ws) :: fs, ∃ f ∈ fs₁ ++ (v, ws) :: fs, f.1 = g.1 := by
    intro g hg
    simp only [List.mem_append, List.mem_cons] at hg
    rcases hg with hg | rfl | hg
    · exact ⟨g, by simp [hg], rfl⟩
    · exact ⟨(v, ws), by simp, rfl⟩
    · exact ⟨g, by simp [hg], rfl⟩
  refine
    { h with
      frames_stack := ?_, frames_desc := ?_, low_lt := ?_, owner := ?_, down := ?_, explored := ?_,
      rest_sub := ?_ }
  · intro f hf
    obtain ⟨g, hg, hgf, -⟩ := hnew f hf
    exact hgf ▸ h.frames_stack g hg
  · have hdesc := (List.pairwise_map (R := fun a b => s.idx b < s.idx a)).mpr h.frames_desc
    rw [← hmap] at hdesc
    exact List.pairwise_map.mp hdesc
  · intro u hu hfs
    exact h.low_lt u hu (hmap ▸ hfs)
  · intro u hu hfs
    obtain ⟨g, hg, hlt, hle, hmax⟩ := h.owner u hu (hmap ▸ hfs)
    obtain ⟨f, hf, hfg⟩ := hold g hg
    refine ⟨f, hf, hfg ▸ hlt, hfg ▸ hle, fun f' hf' => ?_⟩
    obtain ⟨g', hg', hgf', -⟩ := hnew f' hf'
    rw [hfg, ← hgf']
    exact hmax g' hg'
  · intro f hf
    obtain ⟨g, hg, hgf, -⟩ := hnew f hf
    exact hgf ▸ h.down g hg
  · intro u hu x hx
    rcases h.explored u hu x hx with ⟨g, hg, hgu, hgx⟩ | hrest
    · simp only [List.mem_append, List.mem_cons] at hg
      rcases hg with hg | rfl | hg
      · exact .inl ⟨g, by simp [hg], hgu, hgx⟩
      · rcases List.mem_cons.mp hgx with rfl | hgx
        · exact .inr (hgu ▸ hw)
        · exact .inl ⟨(v, ws), by simp, hgu, hgx⟩
      · exact .inl ⟨g, by simp [hg], hgu, hgx⟩
    · exact .inr hrest
  · intro f hf
    obtain ⟨g, hg, hgf, hsub⟩ := hnew f hf
    exact hgf ▸ fun x hx => h.rest_sub g hg (hsub hx)

/-- **Retiring a closed node** with a low-link below its index: it and what hangs from it now hang
from its parent, which has taken over the low-link. -/
theorem retire {v p : α} {ws : List α} (h : Inv adj ((v, []) :: (p, ws) :: fs) s)
    (hlt : s.lowlinks v < s.idx v) (hle : s.lowlinks p ≤ s.lowlinks v) :
    Inv adj ((p, ws) :: fs) s := by
  have hdesc := List.pairwise_cons.mp h.frames_desc
  have hpv : s.idx p < s.idx v := h.below_top (p, ws) List.mem_cons_self
  have hmax : ∀ g ∈ (p, ws) :: fs, s.idx g.1 ≤ s.idx p := by
    intro g hg
    rcases List.mem_cons.mp hg with rfl | hg
    · exact le_rfl
    · exact ((List.pairwise_cons.mp hdesc.2).1 g hg).le
  refine
    { h with
      frames_stack := fun f hf => h.frames_stack f (List.mem_cons_of_mem _ hf)
      frames_desc := hdesc.2
      low_lt := ?_
      owner := ?_
      down := fun f hf => h.down f (List.mem_cons_of_mem _ hf)
      explored := ?_
      rest_sub := fun f hf => h.rest_sub f (List.mem_cons_of_mem _ hf) }
  · intro u hu hfs
    by_cases huv : u = v
    · exact huv ▸ hlt
    · exact h.low_lt u hu (by rw [List.map_cons, List.mem_cons]; exact not_or.mpr ⟨huv, hfs⟩)
  · intro w hw hfs
    by_cases hwv : w = v
    · subst hwv
      exact ⟨(p, ws), List.mem_cons_self, hpv, hle, fun g hg _ => hmax g hg⟩
    · obtain ⟨f, hf, hfw, hfl, hfm⟩ :=
        h.owner w hw (by rw [List.map_cons, List.mem_cons]; exact not_or.mpr ⟨hwv, hfs⟩)
      rcases List.mem_cons.mp hf with rfl | hf
      · exact ⟨(p, ws), List.mem_cons_self, hpv.trans hfw, hle.trans hfl, fun g hg _ => hmax g hg⟩
      · exact ⟨f, hf, hfw, hfl, fun g hg => hfm g (List.mem_cons_of_mem _ hg)⟩
  · intro u hu w hw
    rcases h.explored u hu w hw with ⟨f, hf, hfu, hfw⟩ | hrest
    · rcases List.mem_cons.mp hf with rfl | hf
      · simp at hfw
      · exact .inl ⟨f, hf, hfu, hfw⟩
    · exact .inr hrest

/-- The popped nodes are those from `v` upwards. -/
theorem popped_ge {v : α} {above rest : List α} (h : Inv adj fs s)
    (hstack : s.stack = (above ++ [v]) ++ rest) :
    ∀ u ∈ above ++ [v], s.idx v ≤ s.idx u := by
  intro u hu
  have hpw := h.stack_desc
  rw [hstack, List.pairwise_append, List.pairwise_append] at hpw
  rcases List.mem_append.mp hu with hu | hu
  · exact (hpw.1.2.2 u hu v (by simp)).le
  · rw [List.mem_singleton.mp hu]

/-- What is left of the stack lies below `v`. -/
theorem left_lt {v : α} {above rest : List α} (h : Inv adj fs s)
    (hstack : s.stack = (above ++ [v]) ++ rest) :
    ∀ u ∈ rest, s.idx u < s.idx v := by
  intro u hu
  have hpw := h.stack_desc
  rw [hstack, List.pairwise_append] at hpw
  exact hpw.2.2 v (by simp) u hu

/-- A stack node is popped exactly when it is not below `v`. -/
theorem mem_popped_iff {v : α} {above rest : List α} (h : Inv adj fs s)
    (hstack : s.stack = (above ++ [v]) ++ rest) {u : α}
    (hu : u ∈ s.stack) : u ∈ above ++ [v] ↔ s.idx v ≤ s.idx u := by
  refine ⟨h.popped_ge hstack u, fun hle => ?_⟩
  rw [hstack] at hu
  rcases List.mem_append.mp hu with hu | hu
  · exact hu
  · exact absurd (h.left_lt hstack u hu) (by omega)

/-- Above the innermost open node there are only closed nodes, which hang from it. -/
theorem low_le_of_above {u v : α} (h : Inv adj ((v, []) :: fs) s) (hu : u ∈ s.stack) (huv : u ≠ v)
    (hle : s.idx v ≤ s.idx u) : u ∉ ((v, []) :: fs).map Prod.fst ∧ s.lowlinks v ≤ s.lowlinks u := by
  have hvs : v ∈ s.stack := h.frames_stack (v, []) List.mem_cons_self
  have hlt : s.idx v < s.idx u := lt_of_le_of_ne hle fun heq => huv (h.idx_inj hu hvs heq.symm)
  have hout : u ∉ ((v, []) :: fs).map Prod.fst := by
    intro hmem
    obtain ⟨f, hf, rfl⟩ := List.mem_map.mp hmem
    rcases List.mem_cons.mp hf with rfl | hf
    · exact huv rfl
    · exact absurd (h.below_top f hf) (by omega)
  obtain ⟨f, hf, -, hfl, hfm⟩ := h.owner u hu hout
  have hvf : s.idx v ≤ s.idx f.1 := hfm (v, []) List.mem_cons_self hlt
  rcases List.mem_cons.mp hf with rfl | hf
  · exact ⟨hout, hfl⟩
  · exact absurd (h.below_top f hf) (by omega)

/-- When the low-link of the innermost open node is its own index, every node above it leads back
to it. The induction is on the index: a closed node leads to a lower one, not below `v`. -/
theorem reach_root {v : α} (h : Inv adj ((v, []) :: fs) s) (hroot : s.lowlinks v = s.idx v) :
    ∀ n u, s.idx u = n → u ∈ s.stack → s.idx v ≤ s.idx u → Reach adj u v := by
  intro n
  induction n using Nat.strong_induction_on with
  | _ n ih =>
    intro u hn hu hle
    by_cases huv : u = v
    · exact huv ▸ .refl u
    · obtain ⟨hout, hlow⟩ := h.low_le_of_above hu huv hle
      obtain ⟨x, hx, hxi, hux⟩ := h.low_reach u hu
      have hlt : s.idx x < s.idx u := hxi ▸ h.low_lt u hu hout
      exact hux.trans (ih (s.idx x) (hn ▸ hlt) x rfl hx (by omega))

/-- Its edges, and those of the nodes above it, stay above it or lead to finished components. -/
theorem edge_above {u v w : α} (h : Inv adj ((v, []) :: fs) s) (hroot : s.lowlinks v = s.idx v)
    (hu : u ∈ s.stack) (hle : s.idx v ≤ s.idx u) (hw : w ∈ adj u) :
    (w ∈ s.stack ∧ s.idx v ≤ s.idx w) ∨ w ∈ s.components.flatten := by
  have hlow : s.idx v ≤ s.lowlinks u := by
    by_cases huv : u = v
    · rw [huv, hroot]
    · exact hroot ▸ (h.low_le_of_above hu huv hle).2
  rcases h.explored u hu w hw with ⟨f, hf, hfu, hfw⟩ | hdone | ⟨hstk, hlw⟩
  · rcases List.mem_cons.mp hf with rfl | hf
    · simp at hfw
    · have hlt := h.below_top f hf
      rw [hfu] at hlt
      omega
  · exact .inr hdone
  · exact .inl ⟨hstk, hlow.trans hlw⟩

/-- The counter is above every index of the stack, so entering a vertex gives it the greatest. -/
theorem idx_lt_counter (h : Inv adj fs s) {u : α} (hu : u ∈ s.stack) : s.idx u < s.indexCounter :=
  h.index_lt u _ (h.visited hu)

/-! ### What is handed out -/

section HandOut

variable {v : α} {above rest : List α}

/-- A stack node below `v` is not popped. -/
theorem mem_left_of_lt (h : Inv adj fs s) (hstack : s.stack = (above ++ [v]) ++ rest) {u : α} (hu : u ∈ s.stack)
    (hlt : s.idx u < s.idx v) : u ∈ rest := by
  rw [hstack] at hu
  rcases List.mem_append.mp hu with hu | hu
  · exact absurd (h.popped_ge hstack u hu) (by omega)
  · exact hu

/-- What stays on the stack is not popped, since nothing is on it twice. -/
theorem not_mem_popped (h : Inv adj fs s) (hstack : s.stack = (above ++ [v]) ++ rest) {u : α} (hu : u ∈ rest) :
    u ∉ above ++ [v] := by
  intro hmem
  have h1 := h.popped_ge hstack u hmem
  have h2 := h.left_lt hstack u hu
  omega

/-- Nothing is popped twice. -/
theorem popped_nodup (h : Inv adj fs s) (hstack : s.stack = (above ++ [v]) ++ rest) : (above ++ [v]).Nodup := by
  have hpw := h.stack_desc
  rw [hstack, List.pairwise_append] at hpw
  refine hpw.1.imp fun {a b} hab heq => ?_
  rw [heq] at hab
  omega

/-- What is left and not open was not open before: the closed node is popped. -/
theorem not_open_of_left (h : Inv adj ((v, []) :: fs) s) (hstack : s.stack = (above ++ [v]) ++ rest) {u : α} (hu : u ∈ rest)
    (hfs : u ∉ fs.map Prod.fst) : u ∉ ((v, []) :: fs).map Prod.fst := by
  rw [List.map_cons, List.mem_cons]
  refine not_or.mpr ⟨fun huv => h.not_mem_popped hstack hu ?_, hfs⟩
  rw [show u = v from huv]
  exact List.mem_append_right _ (List.mem_singleton_self v)

/-- Handing a component out adds what was popped, in whichever order it is emitted. -/
theorem mem_handed (hemit : ∀ l : List α, (emit l).Perm l) {components : List (List α)} {popped : List α} {u : α} :
    u ∈ (components ++ [emit popped]).flatten ↔ u ∈ components.flatten ∨ u ∈ popped := by
  rw [List.flatten_append, List.mem_append, List.flatten_singleton, (hemit _).mem_iff]

/-- What hung from an open node that stays still does. -/
theorem owner_handOut (h : Inv adj ((v, []) :: fs) s) (hstack : s.stack = (above ++ [v]) ++ rest) : ∀ w ∈ rest,
    w ∉ fs.map Prod.fst → ∃ f ∈ fs, s.idx f.1 < s.idx w ∧ s.lowlinks f.1 ≤ s.lowlinks w ∧
      ∀ g ∈ fs, s.idx g.1 < s.idx w → s.idx g.1 ≤ s.idx f.1 := by
  intro w hw hfs
  have hws : w ∈ s.stack := by simp [hstack, hw]
  obtain ⟨f, hf, hfw, hfl, hfm⟩ := h.owner w hws (h.not_open_of_left hstack hw hfs)
  rcases List.mem_cons.mp hf with rfl | hf
  · have hlt : s.idx v < s.idx w := hfw
    exact absurd (h.left_lt hstack w hw) (by omega)
  · exact ⟨f, hf, hfw, hfl, fun g hg => hfm g (List.mem_cons_of_mem _ hg)⟩

/-- Edges into the component lead to a finished one now. -/
theorem explored_handOut (h : Inv adj ((v, []) :: fs) s) (hemit : ∀ l : List α, (emit l).Perm l)
    (hstack : s.stack = (above ++ [v]) ++ rest) : ∀ u ∈ rest, ∀ w ∈ adj u,
      (∃ f ∈ fs, f.1 = u ∧ w ∈ f.2) ∨ w ∈ (s.components ++ [emit (above ++ [v])]).flatten ∨
        (w ∈ rest ∧ s.lowlinks u ≤ s.idx w) := by
  intro u hu w hw
  rcases h.explored u (by simp [hstack, hu]) w hw with ⟨f, hf, hfu, hfw⟩ | hdone | ⟨hstk, hle⟩
  · rcases List.mem_cons.mp hf with rfl | hf
    · simp at hfw
    · exact .inl ⟨f, hf, hfu, hfw⟩
  · exact .inr (.inl ((mem_handed hemit).mpr (.inl hdone)))
  · rw [hstack] at hstk
    rcases List.mem_append.mp hstk with hstk | hstk
    · exact .inr (.inl ((mem_handed hemit).mpr (.inr hstk)))
    · exact .inr (.inr ⟨hstk, hle⟩)

/-- What is popped is strongly connected, through its root. -/
theorem strong_popped (h : Inv adj ((v, []) :: fs) s) (hroot : s.lowlinks v = s.idx v)
    (hstack : s.stack = (above ++ [v]) ++ rest) : ∀ u ∈ above ++ [v], ∀ w ∈ above ++ [v], Reach adj u w := by
  intro u hu w hw
  have hpopped : ∀ x ∈ above ++ [v], x ∈ s.stack := fun x hx => hstack ▸ List.mem_append_left _ hx
  have huv := h.reach_root hroot _ u rfl (hpopped u hu) (h.popped_ge hstack u hu)
  exact huv.trans (h.down (v, []) List.mem_cons_self w (hpopped w hw) (h.popped_ge hstack w hw))

/-- Its edges stay in it or lead to finished components. -/
theorem calleesFirst_handOut (h : Inv adj ((v, []) :: fs) s) (hemit : ∀ l : List α, (emit l).Perm l)
    (hroot : s.lowlinks v = s.idx v) (hstack : s.stack = (above ++ [v]) ++ rest) :
    CalleesFirst adj (s.components ++ [emit (above ++ [v])]) := by
  refine h.calleesFirst.snoc fun u hu w hw => ?_
  rw [(hemit _).mem_iff] at hu ⊢
  have hus : u ∈ s.stack := hstack ▸ List.mem_append_left _ hu
  rcases h.edge_above hroot hus (h.popped_ge hstack u hu) hw with ⟨hws, hwi⟩ | hdone
  · exact .inl ((h.mem_popped_iff hstack hws).mpr hwi)
  · exact .inr hdone

end HandOut

variable [DecidableEq α]

/-! ### Entering a node -/

/-- Entering a fresh vertex leaves the indexes of the stack. -/
theorem idx_enter (h : Inv adj fs s) {u v : α} (fresh : s.indexMap v = none) (hu : u ∈ s.stack) :
    (s.enter v).idx u = s.idx u := s.idx_enter_of_ne (h.ne_of_fresh fresh hu)

/-- It leaves the lowlinks of the stack. -/
theorem lowlinks_enter (h : Inv adj fs s) {u v : α} (fresh : s.indexMap v = none) (hu : u ∈ s.stack) :
    (s.enter v).lowlinks u = s.lowlinks u := s.lowlinks_enter_of_ne (h.ne_of_fresh fresh hu)

/-- Indices stay below the counter and differ. -/
theorem index_enter (h : Inv adj fs s) (v : α) :
    (∀ u i, (s.enter v).indexMap u = some i → i < (s.enter v).indexCounter) ∧
      ∀ u w i, (s.enter v).indexMap u = some i → (s.enter v).indexMap w = some i → u = w := by
  constructor
  · intro u i hi
    have hc : (s.enter v).indexCounter = s.indexCounter + 1 := rfl
    rw [s.indexMap_enter] at hi
    split at hi
    · cases hi; omega
    · have := h.index_lt u i hi; omega
  · intro u w i hu hw
    rw [s.indexMap_enter] at hu hw
    split at hu <;> split at hw
    · simp_all
    · cases hu; exact absurd (h.index_lt w _ hw) (by omega)
    · cases hw; exact absurd (h.index_lt u _ hu) (by omega)
    · exact h.index_inj u w i hu hw

/-- A list of stack nodes in falling order stays so with the new node on top. -/
theorem desc_enter {β : Type*} {node : β → α} {l : List β} {b : β} (h : Inv adj fs s) {v : α} (fresh : s.indexMap v = none)
    (hb : node b = v) (hl : ∀ a ∈ l, node a ∈ s.stack) (hdesc : l.Pairwise fun a c => s.idx (node c) < s.idx (node a)) :
    (b :: l).Pairwise fun a c => (s.enter v).idx (node c) < (s.enter v).idx (node a) := by
  refine List.pairwise_cons.mpr ⟨fun a ha => ?_, ?_⟩
  · rw [h.idx_enter fresh (hl a ha), hb, Search.idx_enter_self]
    exact h.idx_lt_counter (hl a ha)
  · refine hdesc.imp_of_mem fun {a c} ha hc hac => ?_
    rw [h.idx_enter fresh (hl a ha), h.idx_enter fresh (hl c hc)]
    exact hac

/-- A low-link is still the index of a stack node that is reached. -/
theorem low_reach_enter (h : Inv adj fs s) {v : α} (fresh : s.indexMap v = none) : ∀ u ∈ (s.enter v).stack,
    ∃ x ∈ (s.enter v).stack, (s.enter v).idx x = (s.enter v).lowlinks u ∧ Reach adj u x := by
  intro u hu
  rcases s.mem_stack_enter.mp hu with rfl | hu
  · exact ⟨u, s.mem_stack_enter.mpr (.inl rfl), by simp, .refl u⟩
  · obtain ⟨x, hx, hxi, hux⟩ := h.low_reach u hu
    exact ⟨x, s.mem_stack_enter.mpr (.inr hx), by rw [h.idx_enter fresh hx, h.lowlinks_enter fresh hu, hxi], hux⟩

/-- A closed node hangs from the frame it hung from: the new one has the largest index and lies below no node. -/
theorem owner_enter (h : Inv adj fs s) {v : α} (fresh : s.indexMap v = none) : ∀ w ∈ (s.enter v).stack,
    w ∉ ((v, adj v) :: fs).map Prod.fst → ∃ f ∈ (v, adj v) :: fs, (s.enter v).idx f.1 < (s.enter v).idx w ∧
      (s.enter v).lowlinks f.1 ≤ (s.enter v).lowlinks w ∧
        ∀ g ∈ (v, adj v) :: fs, (s.enter v).idx g.1 < (s.enter v).idx w → (s.enter v).idx g.1 ≤ (s.enter v).idx f.1 := by
  intro w hw hfs
  simp only [List.map_cons, List.mem_cons, not_or] at hfs
  have hw' := (s.mem_stack_enter.mp hw).resolve_left hfs.1
  obtain ⟨f, hf, hlt, hle, hmax⟩ := h.owner w hw' hfs.2
  have hfst := h.frames_stack f hf
  refine ⟨f, List.mem_cons_of_mem _ hf, ?_, ?_, fun g hg => ?_⟩
  · rw [h.idx_enter fresh hfst, h.idx_enter fresh hw']; exact hlt
  · rw [h.lowlinks_enter fresh hfst, h.lowlinks_enter fresh hw']; exact hle
  · rw [h.idx_enter fresh hfst, h.idx_enter fresh hw']
    rcases List.mem_cons.mp hg with rfl | hg
    · simp only [Search.idx_enter_self]
      have := h.idx_lt_counter hw'
      omega
    · rw [h.idx_enter fresh (h.frames_stack g hg)]
      exact hmax g hg

/-- Open nodes reach what is above them, the new node too. -/
theorem down_enter (h : Inv adj fs s) {v : α} (fresh : s.indexMap v = none) (hreach : ∀ f ∈ fs, Reach adj f.1 v) :
    ∀ f ∈ (v, adj v) :: fs, ∀ w ∈ (s.enter v).stack, (s.enter v).idx f.1 ≤ (s.enter v).idx w → Reach adj f.1 w := by
  intro f hf w hw hle
  rcases List.mem_cons.mp hf with rfl | hf'
  · rcases s.mem_stack_enter.mp hw with rfl | hw
    · exact .refl w
    · rw [Search.idx_enter_self, h.idx_enter fresh hw] at hle
      have := h.idx_lt_counter hw
      omega
  · rcases s.mem_stack_enter.mp hw with rfl | hw
    · exact hreach f hf'
    · rw [h.idx_enter fresh (h.frames_stack f hf'), h.idx_enter fresh hw] at hle
      exact h.down f hf' w hw hle

/-- Of the new node every edge is still to be looked at. -/
theorem explored_enter (h : Inv adj fs s) {v : α} (fresh : s.indexMap v = none) : ∀ u ∈ (s.enter v).stack, ∀ w ∈ adj u,
    (∃ f ∈ (v, adj v) :: fs, f.1 = u ∧ w ∈ f.2) ∨ w ∈ s.components.flatten ∨
      (w ∈ (s.enter v).stack ∧ (s.enter v).lowlinks u ≤ (s.enter v).idx w) := by
  intro u hu w hw
  rcases s.mem_stack_enter.mp hu with rfl | hu
  · exact .inl ⟨(u, adj u), List.mem_cons_self, rfl, hw⟩
  · rcases h.explored u hu w hw with ⟨f, hf, hfu, hfw⟩ | hdone | ⟨hstk, hle⟩
    · exact .inl ⟨f, List.mem_cons_of_mem _ hf, hfu, hfw⟩
    · exact .inr (.inl hdone)
    · refine .inr (.inr ⟨s.mem_stack_enter.mpr (.inr hstk), ?_⟩)
      rw [h.lowlinks_enter fresh hu, h.idx_enter fresh hstk]
      exact hle

/-- **Entering a node** that every open node reaches. -/
theorem enter (h : Inv adj fs s) {v : α} (fresh : s.indexMap v = none)
    (hreach : ∀ f ∈ fs, Reach adj f.1 v) : Inv adj ((v, adj v) :: fs) (s.enter v) where
  index_lt := (h.index_enter v).1
  index_inj := (h.index_enter v).2
  onStack_iff := by
    intro u
    simp [Search.enter, h.onStack_iff]
  entered_iff := by
    intro u
    have hcomp : (s.enter v).components = s.components := rfl
    rw [s.indexMap_enter, s.mem_stack_enter, hcomp, or_assoc, ← h.entered_iff]
    by_cases hu : u = v <;> simp [hu]
  stack_desc := h.desc_enter fresh rfl (fun _ ha => ha) h.stack_desc
  frames_stack := by
    refine List.forall_mem_cons.mpr ⟨s.mem_stack_enter.mpr (.inl rfl), fun f hf => ?_⟩
    exact s.mem_stack_enter.mpr (.inr (h.frames_stack f hf))
  frames_desc := h.desc_enter fresh rfl h.frames_stack h.frames_desc
  low_le := by
    intro u hu
    rcases s.mem_stack_enter.mp hu with rfl | hu
    · simp
    · rw [h.idx_enter fresh hu, h.lowlinks_enter fresh hu]
      exact h.low_le u hu
  low_lt := by
    intro u hu hfs
    simp only [List.map_cons, List.mem_cons, not_or] at hfs
    have hu' := (s.mem_stack_enter.mp hu).resolve_left hfs.1
    rw [h.idx_enter fresh hu', h.lowlinks_enter fresh hu']
    exact h.low_lt u hu' hfs.2
  low_reach := h.low_reach_enter fresh
  owner := h.owner_enter fresh
  down := h.down_enter fresh hreach
  explored := h.explored_enter fresh
  rest_sub := List.forall_mem_cons.mpr ⟨List.Subset.refl _, h.rest_sub⟩
  nodup := h.nodup
  disjoint := by
    intro u hu
    rcases s.mem_stack_enter.mp hu with rfl | hu
    · exact h.fresh_not_done fresh
    · exact h.disjoint u hu
  nonempty := h.nonempty
  strong := h.strong
  calleesFirst := h.calleesFirst

/-! ### Lowering a low-link -/

/-- **Lowering** the low-link of an open node to the index of a stack node it reaches. -/
theorem lower (h : Inv adj fs s) {v x : α} (hv : v ∈ fs.map Prod.fst) (hx : x ∈ s.stack)
    (hvx : Reach adj v x) : Inv adj fs (s.lower v (s.idx x)) := by
  have hlow : ∀ u, (s.lower v (s.idx x)).lowlinks u ≤ s.lowlinks u := by
    intro u
    rw [Search.lowlinks_lower]
    split
    · rename_i huv; rw [huv]; exact Nat.min_le_left _ _
    · exact le_rfl
  have hother : ∀ u, u ≠ v → (s.lower v (s.idx x)).lowlinks u = s.lowlinks u := by
    intro u hu
    rw [Search.lowlinks_lower, if_neg hu]
  refine
    { h with
      low_le := fun u hu => (hlow u).trans (h.low_le u hu)
      low_lt := fun u hu hfs => (hlow u).trans_lt (h.low_lt u hu hfs)
      low_reach := ?_
      owner := ?_
      explored := ?_ }
  · intro u hu
    by_cases huv : u = v
    · subst huv
      rw [Search.lowlinks_lower, if_pos rfl]
      rcases Nat.le_total (s.lowlinks u) (s.idx x) with hle | hle
      · rw [Nat.min_eq_left hle]
        exact h.low_reach u hu
      · rw [Nat.min_eq_right hle]
        exact ⟨x, hx, rfl, hvx⟩
    · rw [hother u huv]
      exact h.low_reach u hu
  · intro w hw hfs
    obtain ⟨f, hf, hlt, hle, hmax⟩ := h.owner w hw hfs
    have hwv : w ≠ v := fun hwv => hfs (hwv ▸ hv)
    exact ⟨f, hf, hlt, by rw [hother w hwv]; exact (hlow f.1).trans hle, hmax⟩
  · intro u hu w hw
    rcases h.explored u hu w hw with hpend | hdone | ⟨hstk, hle⟩
    · exact .inl hpend
    · exact .inr (.inl hdone)
    · exact .inr (.inr ⟨hstk, (hlow u).trans hle⟩)

/-! ### Handing out a component -/

/-- **Handing out a component**: the nodes popped down to a node whose low-link is its own index. -/
theorem handOut {v : α} {above rest : List α} (h : Inv adj ((v, []) :: fs) s) (hemit : ∀ l : List α, (emit l).Perm l)
    (hroot : s.lowlinks v = s.idx v) (hstack : s.stack = (above ++ [v]) ++ rest) :
    Inv adj fs
      { s with
        stack := rest
        onStack := s.onStack \ (above ++ [v]).toFinset
        components := s.components ++ [emit (above ++ [v])] } := by
  have hsub : ∀ u ∈ rest, u ∈ s.stack := fun u hu => by simp [hstack, hu]
  refine
    { index_lt := h.index_lt, index_inj := h.index_inj, onStack_iff := ?_, entered_iff := ?_, stack_desc := ?_,
      frames_stack := fun f hf => h.mem_left_of_lt hstack (h.frames_stack f (List.mem_cons_of_mem _ hf)) (h.below_top f hf),
      frames_desc := (List.pairwise_cons.mp h.frames_desc).2, low_le := fun u hu => h.low_le u (hsub u hu),
      low_lt := fun u hu hfs => h.low_lt u (hsub u hu) (h.not_open_of_left hstack hu hfs), low_reach := ?_,
      owner := h.owner_handOut hstack, down := fun f hf w hw => h.down f (List.mem_cons_of_mem _ hf) w (hsub w hw),
      explored := h.explored_handOut hemit hstack, rest_sub := fun f hf => h.rest_sub f (List.mem_cons_of_mem _ hf),
      nodup := ?_, disjoint := ?_, nonempty := ?_, strong := ?_,
      calleesFirst := h.calleesFirst_handOut hemit hroot hstack }
  · intro u
    show u ∈ s.onStack \ (above ++ [v]).toFinset ↔ u ∈ rest
    rw [Finset.mem_sdiff, h.onStack_iff, List.mem_toFinset, hstack, List.mem_append]
    exact ⟨fun hu => hu.1.resolve_left hu.2, fun hu => ⟨.inr hu, h.not_mem_popped hstack hu⟩⟩
  · intro u
    show _ ↔ u ∈ rest ∨ u ∈ (s.components ++ [emit (above ++ [v])]).flatten
    rw [h.entered_iff, mem_handed hemit, hstack, List.mem_append]
    tauto
  · have hpw := h.stack_desc
    rw [hstack, List.pairwise_append] at hpw
    exact hpw.2.1
  · intro u hu
    obtain ⟨x, hx, hxi, hux⟩ := h.low_reach u (hsub u hu)
    have hle := h.low_le u (hsub u hu)
    have hlt := h.left_lt hstack u hu
    exact ⟨x, h.mem_left_of_lt hstack hx (by omega), hxi, hux⟩
  · show (s.components ++ [emit (above ++ [v])]).flatten.Nodup
    rw [List.flatten_append, List.flatten_singleton, List.nodup_append]
    refine ⟨h.nodup, (hemit _).nodup_iff.mpr (h.popped_nodup hstack), fun a ha b hb hab => ?_⟩
    exact h.disjoint b (hstack ▸ List.mem_append_left _ ((hemit _).mem_iff.mp hb)) (hab ▸ ha)
  · intro u hu hmem
    rcases (mem_handed hemit).mp hmem with hmem | hmem
    · exact h.disjoint u (hsub u hu) hmem
    · exact h.not_mem_popped hstack hu hmem
  · intro C hC
    rcases List.mem_append.mp hC with hC | hC
    · exact h.nonempty C hC
    · rw [List.mem_singleton.mp hC]
      intro hnil
      have := hnil ▸ (hemit (above ++ [v]))
      simp at this
  · intro C hC u hu w hw
    rcases List.mem_append.mp hC with hC | hC
    · exact h.strong C hC u hu w hw
    · rw [List.mem_singleton.mp hC, (hemit _).mem_iff] at hu hw
      exact h.strong_popped hroot hstack u hu w hw

/-! ### Closing a node -/

/-- **Closing the innermost open node** raises nothing. -/
theorem close_isSome {v : α} {ws : List α} (h : Inv adj ((v, ws) :: fs) s)
    (emit : List α → List α) :
    ∃ s', s.close emit v = some s' := by
  obtain ⟨above, rest, hpop, -⟩ := popThrough_spec (h.frames_stack (v, ws) List.mem_cons_self)
  unfold Search.close
  split
  · rw [hpop]; exact ⟨_, rfl⟩
  · exact ⟨s, rfl⟩

/-- **Closing the innermost open node** keeps the invariant. -/
theorem close {v : α} (h : Inv adj ((v, []) :: fs) s) (hemit : ∀ l : List α, (emit l).Perm l)
    (hclose : s.close emit v = some s') : Inv adj fs (s'.passUp v fs) := by
  have hvs : v ∈ s.stack := h.frames_stack (v, []) List.mem_cons_self
  unfold Search.close at hclose
  split at hclose
  · rename_i heq
    have hroot : s.lowlinks v = s.idx v := by
      rw [h.visited hvs] at heq
      exact Option.some.inj heq
    obtain ⟨above, rest, hpop, hstack⟩ := popThrough_spec hvs
    rw [hpop] at hclose
    cases hclose
    have hout := h.handOut hemit hroot hstack
    cases fs with
    | nil => exact hout
    | cons f fs =>
      -- the component's low-link is its root's index, so passing it up lowers nothing
      have hlt := h.below_top f List.mem_cons_self
      have hle := h.low_le f.1 (h.frames_stack f (by simp))
      rw [Search.passUp, Search.lower_of_le]
      · exact hout
      · show s.lowlinks f.1 ≤ s.lowlinks v
        omega
  · rename_i hneq
    cases hclose
    have hlt : s.lowlinks v < s.idx v := by
      refine lt_of_le_of_ne (h.low_le v hvs) fun heq => hneq ?_
      rw [h.visited hvs, heq]
    obtain ⟨x, hx, hxi, hvx⟩ := h.low_reach v hvs
    cases fs with
    | nil =>
      -- the stack node below `v` would have to hang from an open node below `v`
      have hxv : x ≠ v := fun hxv => by rw [hxv] at hxi; omega
      obtain ⟨f, hf, hfx, -⟩ := h.owner x hx (by simpa using hxv)
      obtain rfl := List.mem_singleton.mp hf
      have hvx' : s.idx v < s.idx x := hfx
      omega
    | cons f fs =>
      obtain ⟨p, ws⟩ := f
      have hpv : s.idx p < s.idx v := h.below_top (p, ws) List.mem_cons_self
      have hne : v ≠ p := fun hvp => by rw [hvp] at hpv; omega
      have hpx : Reach adj p x := (h.down (p, ws) (by simp) v hvs hpv.le).trans hvx
      have hlow := h.lower (v := p) (by simp) hx hpx
      rw [hxi] at hlow
      have hlv : (s.lower p (s.lowlinks v)).lowlinks v = s.lowlinks v := by
        rw [Search.lowlinks_lower, if_neg hne]
      refine hlow.retire ?_ ?_
      · rw [hlv]; exact hlt
      · rw [hlv, Search.lowlinks_lower, if_pos rfl]
        exact Nat.min_le_right _ _

/-- **A step keeps the invariant.** -/
theorem step {nodes : List α} {c c' : Config α} (hemit : ∀ l : List α, (emit l).Perm l)
    (h : Inv adj c.frames c.search) (hstep : Step adj emit nodes c c') :
    Inv adj c'.frames c'.search := by
  cases hstep with
  | start fresh _ => exact h.enter fresh (by simp)
  | @tree s v w ws fs fresh =>
    have hvs : v ∈ s.stack := h.frames_stack (v, w :: ws) List.mem_cons_self
    have hvw : w ∈ adj v := h.rest_sub (v, w :: ws) List.mem_cons_self (by simp)
    have hreach : ∀ f ∈ (v, w :: ws) :: fs, Reach adj f.1 w := by
      intro f hf
      refine (h.down f hf v hvs ?_).trans (.edge hvw)
      rcases List.mem_cons.mp hf with rfl | hf
      · exact le_rfl
      · exact (h.below_top f hf).le
    have hlt := h.index_lt v _ (h.visited hvs)
    have hle := h.low_le v hvs
    refine (h.enter fresh hreach).strike [(w, adj w)] (.inr ⟨by simp [Search.enter], ?_⟩)
    rw [Search.lowlinks_enter_of_ne _ (h.ne_of_fresh fresh hvs), Search.idx_enter_self]
    omega
  | @back s v w ws fs i seen on =>
    have hws : w ∈ s.stack := (h.onStack_iff w).mp on
    have hvw : w ∈ adj v := h.rest_sub (v, w :: ws) List.mem_cons_self (by simp)
    have hlow := h.lower (v := v) (by simp) hws (.edge hvw)
    rw [Search.idx_of_some seen] at hlow
    refine hlow.strike [] (.inr ⟨hws, ?_⟩)
    rw [Search.idx_lower, Search.lowlinks_lower, if_pos rfl, Search.idx_of_some seen]
    exact Nat.min_le_right _ _
  | @cross s v w ws fs i seen off =>
    have hdone : w ∈ s.components.flatten := by
      have hent := (h.entered_iff w).mp (by rw [seen]; simp)
      exact hent.resolve_left fun hws => off ((h.onStack_iff w).mpr hws)
    exact h.strike [] (.inl hdone)
  | close closed => exact h.close hemit closed

/-- **Any number of steps keeps the invariant.** -/
theorem steps {nodes : List α} {c c' : Config α} (hemit : ∀ l : List α, (emit l).Perm l)
    (h : Inv adj c.frames c.search) (hsteps : Steps adj emit nodes c c') :
    Inv adj c'.frames c'.search := by
  induction hsteps with
  | refl => exact h
  | tail _ hstep ih => exact ih.step hemit hstep

end Inv

end Assure.Library.Tarjan
