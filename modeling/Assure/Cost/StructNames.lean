import Mathlib.Data.Finset.Dedup
import Mathlib.Data.Finset.Erase
import Mathlib.Data.Fintype.Basic
import Mathlib.Data.List.DropRight
import Mathlib.Logic.Function.Basic

/-!
# Numbered structs

LLVM numbers the versions of a struct type that it has from several objects. `initializeStructEquivalentMap` maps
each version to the one without a number, in two sweeps over the structs. What a sweep does to the entry of a struct
is said once for each kind of struct: without a number, with its unnumbered version in the map, and without one.
The structs are told apart by their clean names, in whatever order they are listed, exactly if every numbered one
has its unnumbered version among them or is the only one with its clean name (`unifies_iff`).

Both directions are proved: the property is over every order in which the module lists its structs,
and over every list of further structs that instructions mention.
-/

namespace Assure

/-- **The struct types of a context**: those with a name have names of their own. -/
structure NamedStructs (σ : Type) where
  name : σ → List Char
  unique : ∀ s t, name s ≠ [] → name s = name t → s = t

/-- **`cleanStructName`** -/
def cleanStructName (structName : List Char) : List Char :=
  if 1 < structName.count '.' then (structName.rdropWhile (· ≠ '.')).dropLast else structName

/-- Cleaning a name never empties it. -/
theorem cleanStructName_ne_nil {structName : List Char} (h : structName ≠ []) : cleanStructName structName ≠ [] := by
  unfold cleanStructName
  split
  · rename_i hdots
    have htail : (structName.rtakeWhile (· ≠ '.')).count '.' = 0 :=
      List.count_eq_zero.mpr fun hmem => by simpa using List.mem_rtakeWhile_imp hmem
    have hfront := congrArg (List.count '.') (List.rdropWhile_append_rtakeWhile (p := (· ≠ '.')) (l := structName))
    rw [List.count_append, htail] at hfront
    intro hnil
    have hlength := congrArg List.length hnil
    rw [List.length_dropLast, List.length_nil] at hlength
    have hcount := List.count_le_length (a := '.') (l := structName.rdropWhile (· ≠ '.'))
    omega
  · exact h

/-- `structEqMap`; a null pointer is no entry. -/
abbrev StructEqMap (σ : Type) := List Char → Option σ

namespace NamedStructs

variable {σ : Type} (N : NamedStructs σ)

/-- The clean name of a struct. -/
def cleanName (s : σ) : List Char := cleanStructName (N.name s)

/-- **`getBaseStType`**: what it returns, and the map that it leaves; `building` is the last parameter. -/
def getBaseStType (stType : σ) (structEqMap : StructEqMap σ) (building : Bool) : Option σ × StructEqMap σ :=
  if N.name stType = [] then (some stType, structEqMap)
  else
    let stOrigName := N.name stType
    let structEqMap :=
      if building = true ∨ structEqMap stOrigName = none then
        let stCleanName := cleanStructName stOrigName
        if stOrigName = stCleanName then Function.update structEqMap stOrigName (some stType)
        else
          match structEqMap stCleanName with
          | some base => Function.update structEqMap stOrigName (some base)
          | none => Function.update structEqMap stOrigName (some stType)
      else structEqMap
    (structEqMap stOrigName, structEqMap)

/-- The calls of a sweep. -/
def sweepStructs (visits : List σ) (structEqMap : StructEqMap σ) : StructEqMap σ :=
  visits.foldl (fun structEqMap stType => (N.getBaseStType stType structEqMap true).2) structEqMap

/-- **`initializeStEqMapInner`** over the structs of the module and those of its instructions. -/
def initializeStEqMapInner (identified used : List σ) (structEqMap : StructEqMap σ) : StructEqMap σ :=
  N.sweepStructs (identified ++ used) structEqMap

/-- **`initializeStructEquivalentMap`** -/
def initializeStructEquivalentMap (identified used : List σ) : StructEqMap σ :=
  N.initializeStEqMapInner identified used (N.initializeStEqMapInner identified used fun _ => none)

/-- What `getBaseStType` returns for a struct afterwards. -/
def baseOf (identified used : List σ) (s : σ) : Option σ :=
  (N.getBaseStType s (N.initializeStructEquivalentMap identified used) false).1

/-! ## One sweep -/

section Sweep

/-- The entry that a struct gets. -/
def entry (structEqMap : StructEqMap σ) (s : σ) : σ :=
  if N.name s = N.cleanName s then s else (structEqMap (N.cleanName s)).getD s

variable {N} {s t b : σ} {structEqMap : StructEqMap σ}

/-- **A step of a sweep** writes the entry of a struct with a name, and no other. -/
theorem step_eq (hs : N.name s ≠ []) :
    (N.getBaseStType s structEqMap true).2 = Function.update structEqMap (N.name s) (some (N.entry structEqMap s)) := by
  unfold getBaseStType entry cleanName
  rw [if_neg hs]
  dsimp only
  rw [if_pos (Or.inl rfl)]
  split
  · rfl
  · cases structEqMap (cleanStructName (N.name s)) <;> rfl

/-- A struct without a name leaves the map as it is. -/
theorem step_unnamed (hs : N.name s = []) : (N.getBaseStType s structEqMap true).2 = structEqMap := by
  rw [getBaseStType, if_pos hs]

/-- What holds of the map holds after a sweep if every step keeps it. -/
theorem sweep_induct {P : StructEqMap σ → Prop} {visits : List σ}
    (hstep : ∀ s ∈ visits, N.name s ≠ [] → ∀ structEqMap, P structEqMap →
      P (Function.update structEqMap (N.name s) (some (N.entry structEqMap s))))
    (h : P structEqMap) :
    P (N.sweepStructs visits structEqMap) := by
  induction visits generalizing structEqMap with
  | nil => exact h
  | cons s visits ih =>
    refine ih (fun t ht => hstep t (List.mem_cons_of_mem _ ht)) ?_
    dsimp only
    by_cases hs : N.name s = []
    · rwa [step_unnamed hs]
    · rw [step_eq hs]
      exact hstep s List.mem_cons_self hs structEqMap h

/-- **The entry of a struct after a sweep**, if it is the same at every visit. -/
theorem sweep_entry {P : StructEqMap σ → Prop} {visits : List σ} (hs : N.name s ≠ []) (hmem : s ∈ visits)
    (hstep : ∀ t ∈ visits, N.name t ≠ [] → ∀ structEqMap, P structEqMap →
      P (Function.update structEqMap (N.name t) (some (N.entry structEqMap t))))
    (hentry : ∀ structEqMap, P structEqMap → N.entry structEqMap s = b) (h : P structEqMap) :
    N.sweepStructs visits structEqMap (N.name s) = some b := by
  obtain ⟨front, back, rfl⟩ := List.append_of_mem hmem
  rw [sweepStructs, List.foldl_append, List.foldl_cons, step_eq hs]
  have hfront := @sweep_induct _ N _ P front (fun t ht => hstep t (List.mem_append_left _ ht)) h
  have hthere := hstep s hmem hs _ hfront
  refine (@sweep_induct _ N _ (fun m => P m ∧ m (N.name s) = some b) back ?_ ?_).2
  · intro t ht hnamed m hm
    refine ⟨hstep t (List.mem_append_right _ (List.mem_cons_of_mem _ ht)) hnamed m hm.1, ?_⟩
    by_cases hname : N.name s = N.name t
    · obtain rfl := N.unique s t hs hname
      rw [Function.update_self, hentry m hm.1]
    · rw [Function.update_of_ne hname]
      exact hm.2
  · exact ⟨hthere, (Function.update_self ..).trans (congrArg some (hentry _ hfront))⟩

end Sweep

/-! ## Two sweeps -/

section Unified

variable {N} {structs : Finset σ} {s t b : σ} {identified used : List σ}

/-- **The structs of a module are listed**, and those of its instructions are among them. -/
structure Lists (structs : Finset σ) (identified used : List σ) : Prop where
  nodup : identified.Nodup
  mem_iff : ∀ s, s ∈ identified ↔ s ∈ structs
  used : ∀ s ∈ used, s ∈ structs

/-- Both lists together hold the structs of the module, each of which is visited. -/
theorem Lists.mem_visits (h : Lists structs identified used) : s ∈ identified ++ used ↔ s ∈ structs := by
  rw [List.mem_append, h.mem_iff]
  exact ⟨fun hmem => hmem.elim id (h.used s), .inl⟩

/-- The base of a struct is read off the finished map under its name. -/
theorem baseOf_eq (hs : N.name s ≠ [])
    (h : N.initializeStructEquivalentMap identified used (N.name s) = some b) : N.baseOf identified used s = some b := by
  rw [baseOf, getBaseStType, if_neg hs]
  dsimp only
  rwa [if_neg (by simp [h])]

/-- **A struct without a number** is its own base. -/
theorem map_unnumbered (hs : N.name s ≠ []) (hclean : N.name s = N.cleanName s) {visits : List σ}
    (hmem : s ∈ visits) (structEqMap : StructEqMap σ) : N.sweepStructs visits structEqMap (N.name s) = some s :=
  sweep_entry (P := fun _ => True) hs hmem (fun _ _ _ _ _ => trivial) (fun _ _ => if_pos hclean) trivial

/-- **A struct whose unnumbered version is listed** has that one as its base. -/
theorem map_numbered (h : Lists structs identified used) (hs : N.name s ≠ []) (hmem : s ∈ structs)
    (hclean : N.name s ≠ N.cleanName s) (hb : b ∈ structs) (hname : N.name b = N.cleanName s)
    (hbase : N.name b = N.cleanName b) (hne : N.name b ≠ []) :
    N.initializeStructEquivalentMap identified used (N.name s) = some b := by
  have hvisit := h.mem_visits.mpr hb
  refine sweep_entry (P := fun m => m (N.name b) = some b) hs (h.mem_visits.mpr hmem) ?_ ?_
    (map_unnumbered hne hbase hvisit _)
  · intro t _ _ m hm
    by_cases heq : N.name b = N.name t
    · obtain rfl := N.unique b t hne heq
      rw [Function.update_self, entry, if_pos hbase]
    · rwa [Function.update_of_ne heq]
  · intro m hm
    rw [entry, if_neg hclean, ← hname, hm]
    rfl

/-- **A struct whose clean name no struct has** is its own base. -/
theorem map_lonely (h : Lists structs identified used) (hs : N.name s ≠ []) (hmem : s ∈ structs)
    (hclean : N.name s ≠ N.cleanName s) (hlonely : ∀ t ∈ structs, N.name t ≠ N.cleanName s) :
    N.initializeStructEquivalentMap identified used (N.name s) = some s := by
  have hkeep : ∀ t ∈ identified ++ used, N.name t ≠ [] → ∀ m : StructEqMap σ, m (N.cleanName s) = none →
      Function.update m (N.name t) (some (N.entry m t)) (N.cleanName s) = none := by
    intro t ht _ m hm
    rwa [Function.update_of_ne (hlonely t (h.mem_visits.mp ht)).symm]
  refine sweep_entry (P := fun m => m (N.cleanName s) = none) hs (h.mem_visits.mpr hmem) hkeep ?_
    (sweep_induct hkeep rfl)
  intro m hm
  rw [entry, if_neg hclean, hm]
  rfl

variable (N structs) in
/-- **The structs are unified**: two have the same base exactly if their clean names are equal, and it is the same
base in every order. -/
structure Unifies : Prop where
  base_iff : ∀ identified used, Lists structs identified used → ∀ s ∈ structs, ∀ t ∈ structs, N.name s ≠ [] →
    N.name t ≠ [] → (N.baseOf identified used s = N.baseOf identified used t ↔ N.cleanName s = N.cleanName t)
  order : ∀ identified used identified' used', Lists structs identified used → Lists structs identified' used' →
    ∀ s ∈ structs, N.name s ≠ [] → N.baseOf identified used s = N.baseOf identified' used' s

variable (N structs) in
/-- The unnumbered version of a struct is among them, and has no number itself. -/
def HasBase (s : σ) : Prop :=
  ∃ b ∈ structs, N.name b ≠ [] ∧ N.name b = N.cleanName s ∧ N.name b = N.cleanName b

variable (N structs) in
/-- A struct is the only one with its clean name, and none has that for its name. -/
def IsLonely (s : σ) : Prop :=
  (∀ t ∈ structs, N.name t ≠ N.cleanName s) ∧
    ∀ t ∈ structs, N.name t ≠ [] → N.cleanName t = N.cleanName s → t = s

variable (N structs) in
/-- **Every numbered struct has a base, or is the only one of its kind.** -/
def Numbered : Prop :=
  ∀ s ∈ structs, N.name s ≠ [] → N.name s ≠ N.cleanName s → HasBase N structs s ∨ IsLonely N structs s

/-- **The base of a struct**, whatever the order. -/
theorem exists_base (hnumbered : Numbered N structs) (hmem : s ∈ structs) (hs : N.name s ≠ []) :
    ∃ b ∈ structs, N.name b ≠ [] ∧ N.cleanName b = N.cleanName s ∧
      (N.name b = N.cleanName s ∨ b = s ∧ IsLonely N structs s) ∧
      ∀ identified used, Lists structs identified used → N.baseOf identified used s = some b := by
  by_cases hclean : N.name s = N.cleanName s
  · exact ⟨s, hmem, hs, rfl, .inl hclean, fun identified used h =>
      baseOf_eq hs (map_unnumbered hs hclean (h.mem_visits.mpr hmem) _)⟩
  · rcases hnumbered s hmem hs hclean with ⟨b, hb, hne, hname, hbase⟩ | hlonely
    · exact ⟨b, hb, hne, hbase.symm.trans hname, .inl hname, fun identified used h =>
        baseOf_eq hs (map_numbered h hs hmem hclean hb hname hbase hne)⟩
    · exact ⟨s, hmem, hs, rfl, .inr ⟨rfl, hlonely⟩, fun identified used h =>
        baseOf_eq hs (map_lonely h hs hmem hclean hlonely.1)⟩

/-- Where each group of numbered names has a member to stand for it, the map unifies the versions of
every struct. -/
theorem unifies_of_numbered (hnumbered : Numbered N structs) : Unifies N structs where
  base_iff identified used h s hs t ht hnamed hnamed' := by
    obtain ⟨b, hb, hne, hclean, hkind, hbase⟩ := exists_base hnumbered hs hnamed
    obtain ⟨b', hb', hne', hclean', hkind', hbase'⟩ := exists_base hnumbered ht hnamed'
    rw [hbase identified used h, hbase' identified used h]
    constructor
    · intro heq
      obtain rfl := Option.some.inj heq
      exact hclean.symm.trans hclean'
    · intro heq
      congr 1
      rcases hkind with hname | ⟨rfl, hlonely⟩
      · rcases hkind' with hname' | ⟨rfl, hlonely⟩
        · exact N.unique b b' hne (hname.trans (heq.trans hname'.symm))
        · exact absurd (hname.trans heq) (hlonely.1 b hb)
      · exact (hlonely.2 b' hb' hne' (hclean'.trans heq.symm)).symm
  order identified used identified' used' h h' s hs hnamed := by
    obtain ⟨b, -, -, -, -, hbase⟩ := exists_base hnumbered hs hnamed
    rw [hbase identified used h, hbase identified' used' h']

/-- A struct that is listed behind another one, whose name is its clean name, gets the base of that one. -/
theorem baseOf_behind {front : List σ} (hnodup : (front ++ [s]).Nodup) (hs : N.name s ≠ []) (ht : t ∈ front)
    (hname : N.name t = N.cleanName s) (hnamed : N.name t ≠ []) (hclean : N.name s ≠ N.cleanName s) :
    N.baseOf (front ++ [s]) [] s = N.baseOf (front ++ [s]) [] t := by
  have hne : N.name t ≠ N.name s := hname.trans_ne hclean.symm
  set before := N.sweepStructs front (N.initializeStEqMapInner (front ++ [s]) [] fun _ => none) with hbefore
  have hmap : N.initializeStructEquivalentMap (front ++ [s]) [] =
      Function.update before (N.name s) (some (N.entry before s)) := by
    rw [initializeStructEquivalentMap, initializeStEqMapInner, List.append_nil, sweepStructs, List.foldl_append,
      List.foldl_cons, List.foldl_nil, step_eq hs]
    rfl
  obtain ⟨b, hb⟩ : ∃ b, before (N.name t) = some b := by
    obtain ⟨front, back, rfl⟩ := List.append_of_mem ht
    rw [hbefore, sweepStructs, List.foldl_append, List.foldl_cons, step_eq hnamed]
    refine sweep_induct (N := N) (P := fun m => ∃ b, m (N.name t) = some b) ?_ ⟨_, Function.update_self ..⟩
    intro u _ _ m hm
    by_cases heq : N.name t = N.name u
    · rw [heq]
      exact ⟨_, Function.update_self ..⟩
    · rwa [Function.update_of_ne heq]
  have hentry : N.entry before s = b := by
    rw [entry, if_neg hclean, ← hname, hb]
    rfl
  rw [baseOf_eq hs (b := b) (by rw [hmap, Function.update_self, hentry]),
    baseOf_eq hnamed (b := b) (by rw [hmap, Function.update_of_ne hne, hb])]

/-- A struct can be listed behind all others. -/
theorem lists_behind [DecidableEq σ] (hs : s ∈ structs) : Lists structs ((structs.erase s).toList ++ [s]) [] where
  nodup := by
    refine (structs.erase s).nodup_toList.append (List.nodup_singleton s) ?_
    intro t ht hts
    obtain rfl := List.mem_singleton.mp hts
    exact Finset.notMem_erase t structs (Finset.mem_toList.mp ht)
  mem_iff t := by
    rw [List.mem_append, Finset.mem_toList, Finset.mem_erase, List.mem_singleton]
    by_cases hts : t = s
    · exact iff_of_true (.inr hts) (hts ▸ hs)
    · exact ⟨fun h => (h.resolve_right hts).2, fun h => .inl ⟨hts, h⟩⟩
  used := List.forall_mem_nil _

/-- The structs of a module can be listed, for instance all in the first list. -/
theorem lists_toList (structs : Finset σ) : Lists structs structs.toList [] :=
  ⟨structs.nodup_toList, fun _ => Finset.mem_toList, List.forall_mem_nil _⟩

/-- **The structs are unified exactly if every numbered one has a base or is the only one of its kind**, that is, no
other has its clean name. Every finite set of structs is meant, and every order in which they are gone through. -/
theorem unifies_iff : Unifies N structs ↔ Numbered N structs := by
  classical
  refine ⟨fun h s hs hnamed hclean => ?_, unifies_of_numbered⟩
  by_contra hnot
  obtain ⟨hbase, hlonely⟩ := not_or.mp hnot
  by_cases hthere : ∃ t ∈ structs, N.name t = N.cleanName s
  · -- its clean name is that of another numbered one, whose base it gets behind it
    obtain ⟨t, ht, hname⟩ := hthere
    have hnamed' : N.name t ≠ [] := hname.trans_ne (cleanStructName_ne_nil hnamed)
    have hne : t ≠ s := fun heq => hclean (heq ▸ hname)
    have hlists := lists_behind hs
    have hsame := baseOf_behind hlists.nodup hnamed (Finset.mem_toList.mpr (Finset.mem_erase.mpr ⟨hne, ht⟩)) hname
      hnamed' hclean
    have hcleans := (h.base_iff _ _ hlists s hs t ht hnamed hnamed').mp hsame
    exact hbase ⟨t, ht, hnamed', hname, hname.trans hcleans⟩
  · -- two of one kind with no base: each is its own
    push Not at hthere
    have hother : ∃ t ∈ structs, N.name t ≠ [] ∧ N.cleanName t = N.cleanName s ∧ t ≠ s := by
      by_contra hnone
      push Not at hnone
      exact hlonely ⟨hthere, hnone⟩
    obtain ⟨t, ht, hnamed', hsame, hne⟩ := hother
    have hlists := lists_toList structs
    have hclean' : N.name t ≠ N.cleanName t := hsame ▸ hthere t ht
    have heq := (h.base_iff _ _ hlists t ht s hs hnamed' hnamed).mpr hsame
    rw [baseOf_eq hnamed (map_lonely hlists hnamed hs hclean hthere),
      baseOf_eq hnamed' (map_lonely hlists hnamed' ht hclean' (hsame ▸ hthere))] at heq
    exact hne (Option.some.inj heq)

end Unified

end NamedStructs

/-- Two versions of a struct and none without a number. -/
def twoVersions : NamedStructs Bool where
  name s := (if s then "struct.S.27" else "struct.S.1").toList
  unique := by decide

/-- **They are not unified**, although they have one clean name. -/
theorem twoVersions_not : ¬ NamedStructs.Unifies twoVersions Finset.univ := by
  intro h
  have hlists : NamedStructs.Lists Finset.univ [false, true] [] := ⟨by decide, by decide, by decide⟩
  have hclean : twoVersions.cleanName false = twoVersions.cleanName true := by decide
  have hbase := (h.base_iff _ _ hlists false (Finset.mem_univ _) true (Finset.mem_univ _) (by decide)
    (by decide)).mpr hclean
  exact absurd hbase (by decide)

end Assure
