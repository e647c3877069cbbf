import Assure.Library.Condensation

/-!
# Orders on the components of a graph

An order on the numbers of the components that respects their dependencies lists the components in
a component order again (`SccOrder.reorder`). A `GreedyOrder` takes, at every position, the least
component by some key of those whose dependencies are all listed; a graph has only one
(`GreedyOrder.eq`), so a program that computes it cannot depend on how its input was listed.
-/

namespace Assure.Library

variable {α : Type*} {adj : α → List α} {nodes : List α} {components : List (List α)}
  {emit : List α → List α} {order : List Nat}

/-! ## From an order on the numbers -/

/-- A listed number is the position of a component. -/
theorem getD_of_mem_order (hperm : order.Perm (List.range components.length)) {i : Nat}
    (hi : i ∈ order) : components[i]? = some (components.getD i []) := by
  have hlt : i < components.length := List.mem_range.mp (hperm.mem_iff.mp hi)
  rw [List.getD_eq_getElem?_getD, List.getElem?_eq_getElem hlt, Option.getD_some]

/-- Listing the components in another order, members permuted, lists the same nodes. -/
theorem flatten_reorder_perm (hemit : ∀ l : List α, (emit l).Perm l)
    (hperm : order.Perm (List.range components.length)) :
    (order.map fun i => emit (components.getD i [])).flatten.Perm components.flatten := by
  have hrange : (List.range components.length).map (fun i => emit (components.getD i [])) =
      components.map emit := by
    refine List.ext_getElem (by simp) fun i hi hi' => ?_
    have hlt : i < components.length := by simpa using hi'
    simp [hlt]
  have hmembers : (components.map emit).flatten.Perm components.flatten := by
    refine List.Perm.flatten_congr ?_
    rw [List.forall₂_map_left_iff]
    exact List.forall₂_same.mpr fun C _ => hemit C
  exact ((hperm.map _).flatten.trans (hrange ▸ .refl _)).trans hmembers

/-- **An order on the numbers that puts every component after those it depends on** is again a
component order. -/
theorem SccOrder.reorder (h : SccOrder adj nodes components) (hemit : ∀ l : List α, (emit l).Perm l)
    (hperm : order.Perm (List.range components.length))
    (hfirst : ∀ pre i post, order = pre ++ i :: post →
      ∀ d, DependsOn adj components i d → d ∈ pre) :
    SccOrder adj nodes (order.map fun i => emit (components.getD i [])) := by
  have hflat := flatten_reorder_perm hemit hperm
  have hmem : ∀ C ∈ order.map fun i => emit (components.getD i []), ∃ D ∈ components, C.Perm D := by
    intro C hC
    obtain ⟨i, hi, rfl⟩ := List.mem_map.mp hC
    exact ⟨_, List.mem_of_getElem? (getD_of_mem_order hperm hi), hemit _⟩
  refine ⟨fun C hC hnil => ?_, hflat.nodup_iff.mpr h.nodup, fun v => hflat.mem_iff.trans (h.cover v),
    fun C hC u hu v hv => ?_, fun pre' C post' heq u hu v hv => ?_⟩
  · obtain ⟨D, hD, hperm'⟩ := hmem C hC
    exact h.nonempty D hD (hnil ▸ hperm').nil_eq.symm
  · obtain ⟨D, hD, hperm'⟩ := hmem C hC
    exact h.strong D hD u (hperm'.mem_iff.mp hu) v (hperm'.mem_iff.mp hv)
  · obtain ⟨pre, l, horder, rfl, hl⟩ := List.map_eq_append_iff.mp heq
    obtain ⟨i, post, rfl, rfl, rfl⟩ := List.map_eq_cons_iff.mp hl
    have hi := getD_of_mem_order hperm (horder ▸ by simp : i ∈ order)
    have hu' := (hemit _).mem_iff.mp hu
    have hvnode : v ∈ components.flatten := by
      obtain ⟨l, r, hsplit⟩ := List.append_of_mem (List.mem_of_getElem? hi)
      rcases h.calleesFirst l _ r hsplit u hu' v hv with hv | hv
      · exact List.mem_flatten.mpr ⟨_, List.mem_of_getElem? hi, hv⟩
      · rw [hsplit, List.flatten_append]
        exact List.mem_append_left _ hv
    obtain ⟨D, hD, hvD⟩ := List.mem_flatten.mp hvnode
    obtain ⟨d, hd⟩ := List.mem_iff_getElem?.mp hD
    by_cases hid : i = d
    · subst hid
      obtain rfl := Option.some.inj (hi.symm.trans hd)
      exact .inl ((hemit _).mem_iff.mpr hvD)
    · have hdpre := hfirst pre i post horder d ⟨hid, _, D, hi, hd, u, hu', v, hvD, hv⟩
      refine .inr (List.mem_flatten.mpr ⟨_, List.mem_map_of_mem hdpre, (hemit _).mem_iff.mpr ?_⟩)
      rwa [List.getD_eq_getElem?_getD, hd]

/-! ## Greedy orders -/

variable {κ : Type*} [LinearOrder κ]

/-- **A component order that takes the least first**: every component comes before the later ones
whose edges lead into themselves or the components already listed, unless their keys are less. -/
structure GreedyOrder (adj : α → List α) (nodes : List α) (key : List α → κ)
    (components : List (List α)) : Prop extends SccOrder adj nodes components where
  least : ∀ pre C post, components = pre ++ C :: post → ∀ D ∈ post,
    (∀ u ∈ D, ∀ v ∈ adj u, v ∈ D ∨ v ∈ pre.flatten) → key C ≤ key D

variable {adj' : α → List α} {nodes' : List α} {key : List α → κ} {bs bs' : List (List α)}

/-- A greedy order on the numbers of the components is one on the components. -/
theorem SccOrder.greedy (h : SccOrder adj nodes components) (hemit : ∀ l : List α, (emit l).Perm l)
    (hperm : order.Perm (List.range components.length))
    (hfirst : ∀ pre i post, order = pre ++ i :: post →
      ∀ d, DependsOn adj components i d → d ∈ pre)
    (hleast : ∀ pre i post, order = pre ++ i :: post → ∀ j < components.length, j ∉ pre →
      (∀ d, DependsOn adj components j d → d ∈ pre) →
        key (emit (components.getD i [])) ≤ key (emit (components.getD j []))) :
    GreedyOrder adj nodes key (order.map fun i => emit (components.getD i [])) where
  toSccOrder := h.reorder hemit hperm hfirst
  least pre' C post' heq D hD havail := by
    obtain ⟨pre, l, horder, rfl, hl⟩ := List.map_eq_append_iff.mp heq
    obtain ⟨i, post, rfl, rfl, rfl⟩ := List.map_eq_cons_iff.mp hl
    obtain ⟨j, hj, rfl⟩ := List.mem_map.mp hD
    have hjorder : j ∈ order := by simp [horder, hj]
    have hjget := getD_of_mem_order hperm hjorder
    have hjpre : j ∉ pre := by
      intro hpre
      have hnd := hperm.nodup_iff.mpr List.nodup_range
      rw [horder] at hnd
      exact (List.nodup_append.mp hnd).2.2 j hpre j (List.mem_cons_of_mem _ hj) rfl
    refine hleast pre i post horder j (List.mem_range.mp (hperm.mem_iff.mp hjorder)) hjpre ?_
    rintro d ⟨hne, E, F, hE, hF, u, hu, v, hv, huv⟩
    obtain rfl := Option.some.inj (hjget.symm.trans hE)
    rcases havail u ((hemit _).mem_iff.mpr hu) v huv with hvj | hvpre
    · exact absurd (h.index_unique hE hF ((hemit _).mem_iff.mp hvj) hv) hne
    · obtain ⟨_, hG, hvG⟩ := List.mem_flatten.mp hvpre
      obtain ⟨k, hk, rfl⟩ := List.mem_map.mp hG
      have hkget := getD_of_mem_order hperm (horder ▸ List.mem_append_left _ hk : k ∈ order)
      obtain rfl := h.index_unique hkget hF ((hemit _).mem_iff.mp hvG) hv
      exact hk

/-- Component orders of one graph have the same components, up to the order of the members. -/
theorem SccOrder.perm_of_mem (h : SccOrder adj nodes bs) (h' : SccOrder adj' nodes' bs')
    (hadj : ∀ u v, v ∈ adj u ↔ v ∈ adj' u) {C D : List α} (hC : C ∈ bs) (hD : D ∈ bs') {v : α}
    (hvC : v ∈ C) (hvD : v ∈ D) : C.Perm D := by
  refine (List.perm_ext_iff_of_nodup (h.nodup_of_mem hC) (h'.nodup_of_mem hD)).mpr fun u => ?_
  rw [h.mem_iff_linked hC hvC, h'.mem_iff_linked hD hvD, Linked, Linked, Reach.congr hadj,
    Reach.congr hadj]

variable (hadj : ∀ u v, v ∈ adj u ↔ v ∈ adj' u) (hnodes : ∀ v, v ∈ nodes ↔ v ∈ nodes')
  (hcanon : ∀ C ∈ bs, ∀ D ∈ bs', C.Perm D → C = D)
include hadj hnodes hcanon

/-- Where two greedy orders part, the first has the lesser key: it could have taken what the second
took. -/
theorem GreedyOrder.key_le (h : GreedyOrder adj nodes key bs) (h' : SccOrder adj' nodes' bs')
    {pre rest rest' : List (List α)} {C D : List α} (hbs : bs = pre ++ C :: rest)
    (hbs' : bs' = pre ++ D :: rest') : key C ≤ key D := by
  have hD : D ∈ bs' := by simp [hbs']
  obtain ⟨v, hv⟩ := List.exists_mem_of_ne_nil D (h'.nonempty D hD)
  have hvpre : v ∉ pre.flatten := by
    have hnd := h'.nodup
    rw [hbs', List.flatten_append, List.flatten_cons] at hnd
    exact fun hvpre => (List.nodup_append.mp hnd).2.2 v hvpre v (List.mem_append_left _ hv) rfl
  have hvbs : v ∈ bs.flatten :=
    (h.cover v).mpr ((hnodes v).mpr ((h'.cover v).mp (List.mem_flatten.mpr ⟨D, hD, hv⟩)))
  obtain ⟨E, hE, hvE⟩ := List.mem_flatten.mp hvbs
  obtain rfl : E = D := hcanon E hE D hD (h.perm_of_mem h' hadj hE hD hvE hv)
  rw [hbs, List.mem_append, List.mem_cons] at hE
  rcases hE with hE | rfl | hE
  · exact absurd (List.mem_flatten.mpr ⟨E, hE, hvE⟩) hvpre
  · exact le_rfl
  · exact h.least pre C rest hbs E hE fun u hu w hw =>
      h'.calleesFirst pre E rest' hbs' u hu w ((hadj u w).mp hw)

/-- **A graph has one greedy order**, when keys tell components apart and members are listed in a
fixed order. -/
theorem GreedyOrder.eq (h : GreedyOrder adj nodes key bs) (h' : GreedyOrder adj' nodes' key bs')
    (hkey : ∀ C ∈ bs, ∀ D ∈ bs', key C = key D → ∃ v ∈ C, v ∈ D) : bs = bs' := by
  -- what is left over when one list has ended would have a node the other lacks
  have hend : ∀ {adj adj' : α → List α} {nodes nodes' : List α} {pre rest : List (List α)}
      {D : List α}, (∀ v, v ∈ nodes ↔ v ∈ nodes') → SccOrder adj nodes pre →
      SccOrder adj' nodes' (pre ++ D :: rest) → False := by
    intro adj adj' nodes nodes' pre rest D hnodes h h'
    obtain ⟨v, hv⟩ := List.exists_mem_of_ne_nil D (h'.nonempty D (by simp))
    have hvpre := (h.cover v).mpr ((hnodes v).mpr ((h'.cover v).mp (by simp [hv])))
    have hnd := h'.nodup
    rw [List.flatten_append, List.flatten_cons] at hnd
    exact (List.nodup_append.mp hnd).2.2 v hvpre v (List.mem_append_left _ hv) rfl
  have hmain : ∀ post pre post', bs = pre ++ post → bs' = pre ++ post' → post = post' := by
    intro post
    induction post with
    | nil =>
      intro pre post' hbs hbs'
      cases post' with
      | nil => rfl
      | cons D rest' =>
        rw [List.append_nil] at hbs
        exact (hend hnodes (hbs ▸ h.toSccOrder) (hbs' ▸ h'.toSccOrder)).elim
    | cons C rest ih =>
      intro pre post' hbs hbs'
      cases post' with
      | nil =>
        rw [List.append_nil] at hbs'
        exact (hend (fun v => (hnodes v).symm) (hbs' ▸ h'.toSccOrder) (hbs ▸ h.toSccOrder)).elim
      | cons D rest' =>
        have hle := h.key_le hadj hnodes hcanon h'.toSccOrder hbs hbs'
        have hge := h'.key_le (fun u v => (hadj u v).symm) (fun v => (hnodes v).symm)
          (fun D hD C hC hperm => (hcanon C hC D hD hperm.symm).symm) h.toSccOrder hbs' hbs
        have hC : C ∈ bs := by simp [hbs]
        have hD : D ∈ bs' := by simp [hbs']
        obtain ⟨v, hvC, hvD⟩ := hkey C hC D hD (le_antisymm hle hge)
        obtain rfl := hcanon C hC D hD (h.perm_of_mem h'.toSccOrder hadj hC hD hvC hvD)
        rw [ih (pre ++ [C]) rest' (by simp [hbs]) (by simp [hbs'])]
  exact hmain bs [] bs' rfl rfl

end Assure.Library
