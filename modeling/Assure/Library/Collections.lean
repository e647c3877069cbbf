import Mathlib.Data.List.Nodup
import Mathlib.Data.Finset.Sort
import Mathlib.Data.List.Sort

/-!
# Python's dictionaries and sets

A dictionary is a list of entries with distinct keys, in insertion order; the distinctness is a
field, so no later proof asks for it. `get?` looks a key up and `modify` changes the value stored
under one key in place.

A set is a `Finset`. Where a program iterates over a set, the order is an arbitrary `SetOrder`.
`sortedBy` is `sorted` with a key: where the key tells the members apart, the order the list came in
is forgotten (`sortedBy_congr`).
-/

namespace Assure.Library

variable {κ ν : Type*}

/-- **A dictionary**, its entries in insertion order. -/
structure Dict (κ ν : Type*) where
  entries : List (κ × ν)
  nodup : (entries.map Prod.fst).Nodup

namespace Dict

/-- `d.keys()`, in order. -/
def keys (d : Dict κ ν) : List κ := d.entries.map Prod.fst

/-- No key occurs twice. -/
theorem keys_nodup (d : Dict κ ν) : d.keys.Nodup := d.nodup

variable [DecidableEq κ]

/-- The value stored under a key. -/
def get? (d : Dict κ ν) (k : κ) : Option ν := (d.entries.find? fun e => e.1 = k).map Prod.snd

/-- Change the value stored under one key, in place. -/
def modify (d : Dict κ ν) (k : κ) (f : ν → ν) : Dict κ ν where
  entries := d.entries.map fun e => if e.1 = k then (e.1, f e.2) else e
  nodup := by
    have hkeys : (d.entries.map fun e => if e.1 = k then (e.1, f e.2) else e).map Prod.fst =
        d.entries.map Prod.fst := by
      rw [List.map_map]
      refine List.map_congr_left fun e _ => ?_
      simp only [Function.comp_apply]
      split <;> rfl
    exact hkeys ▸ d.nodup

/-- Changing a value leaves the keys. -/
@[simp] theorem keys_modify (d : Dict κ ν) (k : κ) (f : ν → ν) : (d.modify k f).keys = d.keys := by
  simp only [keys, modify, List.map_map]
  refine List.map_congr_left fun e _ => ?_
  simp only [Function.comp_apply]
  split <;> rfl

/-- A key is stored exactly when looking it up finds something. -/
theorem get?_eq_none_iff (d : Dict κ ν) (k : κ) : d.get? k = none ↔ k ∉ d.keys := by
  simp only [get?, Option.map_eq_none_iff, List.find?_eq_none, keys, List.mem_map]
  constructor
  · rintro h ⟨e, he, rfl⟩
    exact h e he (by simp)
  · intro h e he hk
    exact h ⟨e, he, by simpa using hk⟩

/-- Changing a value is seen under its key only. -/
theorem get?_modify (d : Dict κ ν) (k k' : κ) (f : ν → ν) :
    (d.modify k f).get? k' = if k' = k then (d.get? k').map f else d.get? k' := by
  simp only [get?, modify]
  induction d.entries with
  | nil => simp
  | cons e rest ih =>
    by_cases he : e.1 = k' <;> by_cases hk : k' = k
    · subst he hk; simp
    · subst he; simp [hk]
    · subst hk
      simpa [he] using ih
    · by_cases hek : e.1 = k
      · have hkk : ¬ k = k' := fun h => hk h.symm
        simpa [hek, hkk, hk] using ih
      · simpa [he, hk, hek] using ih

/-- `d[k] = v`: a key that is there keeps its place. -/
def insert (d : Dict κ ν) (k : κ) (v : ν) : Dict κ ν :=
  if h : k ∈ d.keys then d.modify k fun _ => v
  else
    { entries := d.entries ++ [(k, v)]
      nodup := by
        rw [List.map_append, List.map_singleton]
        refine List.Nodup.append d.nodup (List.nodup_singleton k) ?_
        rintro x hx hk
        obtain rfl := List.mem_singleton.mp hk
        exact h hx }

/-- What is in a dictionary after an insertion: the new entry, and the others that have not its key.
-/
theorem mem_insert (d : Dict κ ν) (k : κ) (v : ν) (e : κ × ν) :
    e ∈ (d.insert k v).entries ↔ e = (k, v) ∨ e ∈ d.entries ∧ e.1 ≠ k := by
  unfold insert
  split
  · rename_i hk
    obtain ⟨e', he', hkey⟩ := List.mem_map.mp hk
    simp only [modify, List.mem_map]
    constructor
    · rintro ⟨f, hf, rfl⟩
      split
      · rename_i hfk
        exact .inl (Prod.ext hfk rfl)
      · rename_i hfk
        exact .inr ⟨hf, hfk⟩
    · rintro (rfl | ⟨he, hne⟩)
      · exact ⟨e', he', by rw [if_pos hkey, hkey]⟩
      · exact ⟨e, he, if_neg hne⟩
  · rename_i hk
    rw [List.mem_append, List.mem_singleton]
    constructor
    · rintro (he | rfl)
      · refine .inr ⟨he, ?_⟩
        rintro rfl
        exact hk (List.mem_map_of_mem he)
      · exact .inl rfl
    · rintro (rfl | ⟨he, -⟩)
      · exact .inr rfl
      · exact .inl he

/-- An insertion adds its key. -/
theorem mem_keys_insert (d : Dict κ ν) (k : κ) (v : ν) (k' : κ) :
    k' ∈ (d.insert k v).keys ↔ k' = k ∨ k' ∈ d.keys := by
  unfold insert
  split
  · rename_i hk
    rw [keys_modify]
    constructor
    · exact .inr
    · rintro (rfl | h)
      · exact hk
      · exact h
  · simp [keys, or_comm]

/-- A value is found under a key exactly if the two are an entry. -/
theorem get?_eq_some_iff (d : Dict κ ν) (k : κ) (v : ν) : d.get? k = some v ↔ (k, v) ∈ d.entries := by
  unfold get?
  rw [Option.map_eq_some_iff]
  constructor
  · rintro ⟨e, he, rfl⟩
    obtain rfl : e.1 = k := by simpa using List.find?_some he
    exact List.mem_of_find?_eq_some he
  · intro hmem
    cases hfind : d.entries.find? (fun e => e.1 = k) with
    | none => exact absurd (List.find?_eq_none.mp hfind _ hmem) (by simp)
    | some e =>
      have hkey : e.1 = k := by simpa using List.find?_some hfind
      have heq := List.inj_on_of_nodup_map d.nodup (List.mem_of_find?_eq_some hfind) hmem hkey
      exact ⟨e, rfl, by rw [heq]⟩

/-- A value that was inserted is found under its key, and the others as before. -/
theorem get?_insert (d : Dict κ ν) (k : κ) (v : ν) (k' : κ) :
    (d.insert k v).get? k' = if k' = k then some v else d.get? k' := by
  ext w
  rw [get?_eq_some_iff, mem_insert, ← get?_eq_some_iff]
  by_cases hk : k' = k
  · simp [hk, eq_comm]
  · rw [if_neg hk]
    constructor
    · rintro (h | h)
      · exact absurd (Prod.mk.inj h).1 hk
      · exact h.1
    · exact fun h => .inr ⟨h, hk⟩

/-- Entries that agree where their keys do are all found again. -/
theorem get?_foldl_insert {ι : Type*} (key : ι → κ) (val : ι → ν) {items : List ι}
    (h : ∀ a ∈ items, ∀ b ∈ items, key a = key b → val a = val b) (d : Dict κ ν) :
    ∀ a ∈ items, (items.foldl (fun d a => d.insert (key a) (val a)) d).get? (key a) = some (val a) := by
  induction items using List.reverseRecOn with
  | nil => exact fun _ ha => absurd ha List.not_mem_nil
  | append_singleton items last ih =>
    intro a ha
    rw [List.foldl_append, List.foldl_cons, List.foldl_nil, get?_insert]
    by_cases hkey : key a = key last
    · rw [if_pos hkey, h a ha last (by simp) hkey]
    · rw [if_neg hkey]
      refine ih (fun b hb c hc => h b (List.mem_append_left _ hb) c (List.mem_append_left _ hc)) a ?_
      rcases List.mem_append.mp ha with ha | ha
      · exact ha
      · exact absurd (congrArg key (List.mem_singleton.mp ha)) hkey

/-- A key that was there keeps its place, and a new one comes last. -/
theorem keys_insert (d : Dict κ ν) (k : κ) (v : ν) :
    (d.insert k v).keys = if k ∈ d.keys then d.keys else d.keys ++ [k] := by
  unfold insert
  split
  · rw [keys_modify]
  · simp [keys]

/-- The entries of the other keys. -/
def without (d : Dict κ ν) (k : κ) : Dict κ ν where
  entries := d.entries.filter fun e => e.1 ≠ k
  nodup := (List.filter_sublist.map Prod.fst).nodup d.nodup

/-- Under a key that was taken out nothing is found. -/
theorem get?_without (d : Dict κ ν) (k k' : κ) :
    (d.without k).get? k' = if k' = k then none else d.get? k' := by
  ext v
  rw [get?_eq_some_iff, without, List.mem_filter, ← get?_eq_some_iff]
  by_cases hk : k' = k <;> simp [hk]

/-- The empty dictionary. -/
def empty : Dict κ ν := ⟨[], List.nodup_nil⟩

/-- The entries of some of the keys. -/
def keep (d : Dict κ ν) (p : κ → Bool) : Dict κ ν where
  entries := d.entries.filter fun e => p e.1
  nodup := (List.filter_sublist.map Prod.fst).nodup d.nodup

omit [DecidableEq κ] in
/-- The keys that are kept stay in their order. -/
@[simp] theorem keys_keep (d : Dict κ ν) (p : κ → Bool) : (d.keep p).keys = d.keys.filter p := by
  rw [keys, keep, keys, List.filter_map]
  rfl

/-- `d.setdefault(k, v)` -/
def setdefault (d : Dict κ ν) (k : κ) (v : ν) : Dict κ ν := if k ∈ d.keys then d else d.insert k v

/-- Setting a default adds its key. -/
theorem mem_keys_setdefault (d : Dict κ ν) (k : κ) (v : ν) (k' : κ) :
    k' ∈ (d.setdefault k v).keys ↔ k' = k ∨ k' ∈ d.keys := by
  unfold setdefault
  split
  · rename_i hk
    constructor
    · exact .inr
    · intro h
      rcases h with rfl | h
      · exact hk
      · exact h
  · exact mem_keys_insert d k v k'

/-- A key that is there keeps its value. -/
theorem setdefault_of_mem {d : Dict κ ν} {k : κ} (h : k ∈ d.keys) (v : ν) : d.setdefault k v = d := if_pos h

/-- A key that is not there is added last, with the default. -/
theorem entries_setdefault_of_notMem {d : Dict κ ν} {k : κ} (h : k ∉ d.keys) (v : ν) :
    (d.setdefault k v).entries = d.entries ++ [(k, v)] := by
  rw [setdefault, if_neg h, insert, dif_neg h]

end Dict

/-- **The order a program iterates over its sets in**: every member once, in any order. -/
structure SetOrder (α : Type*) where
  toList : Finset α → List α
  nodup : ∀ s, (toList s).Nodup
  mem_toList : ∀ s a, a ∈ toList s ↔ a ∈ s

/-- Iteration from the least member up. -/
def SetOrder.ascending (α : Type*) [LinearOrder α] : SetOrder α where
  toList s := s.sort (· ≤ ·)
  nodup s := s.sort_nodup _
  mem_toList _ _ := Finset.mem_sort _

/-! ## Sorting by a key -/

section Sorting

variable {α κ : Type*} [LinearOrder κ] (key : α → κ)

/-- `sorted(l, key=key)`: members with equal keys stay in the order they came in. -/
def sortedBy (l : List α) : List α := l.insertionSort fun a b => key a ≤ key b

variable {key}

/-- Sorting loses nothing and adds nothing. -/
theorem sortedBy_perm (key : α → κ) (l : List α) : (sortedBy key l).Perm l :=
  l.perm_insertionSort _

/-- Sorting keeps the members. -/
@[simp] theorem mem_sortedBy {l : List α} {a : α} : a ∈ sortedBy key l ↔ a ∈ l :=
  (sortedBy_perm key l).mem_iff

/-- What is sorted is in the order of its keys. -/
theorem sortedBy_pairwise (key : α → κ) (l : List α) :
    (sortedBy key l).Pairwise fun a b => key a ≤ key b := by
  have : Std.Total fun a b : α => key a ≤ key b := ⟨fun a b => le_total (key a) (key b)⟩
  have : IsTrans α fun a b : α => key a ≤ key b := ⟨fun _ _ _ h h' => h.trans h'⟩
  exact l.pairwise_insertionSort _

/-- **Sorting by a key that tells members apart forgets the order of the list.** -/
theorem sortedBy_congr (hkey : Function.Injective key) {l l' : List α} (h : l.Perm l') :
    sortedBy key l = sortedBy key l' := by
  refine List.Perm.eq_of_pairwise (fun a b _ _ hab hba => hkey (le_antisymm hab hba))
    (sortedBy_pairwise key l) (sortedBy_pairwise key l') ?_
  exact (sortedBy_perm key l).trans (h.trans (sortedBy_perm key l').symm)

/-- A list with ascending keys is what sorting makes of its members. -/
theorem sortedBy_eq_of_perm {l l' : List α} (h : l.Perm l')
    (hkeys : l'.Pairwise fun a b => key a < key b) : sortedBy key l = l' := by
  have hnodup : (l'.map key).Nodup := List.pairwise_map.mpr (hkeys.imp ne_of_lt)
  refine List.Perm.eq_of_pairwise ?_ (sortedBy_pairwise key l) (hkeys.imp le_of_lt)
    ((sortedBy_perm key l).trans h)
  intro a b ha hb hab hba
  exact List.inj_on_of_nodup_map hnodup (h.mem_iff.mp (mem_sortedBy.mp ha)) hb (le_antisymm hab hba)

end Sorting

/-! ## What is kept -/

/-- **Two ways to keep elements** keep the same images exactly if they agree. -/
theorem map_filter_eq_iff {α β : Type*} {p : α → Bool} {q : β → Bool} {f : α → β} {l : List α} :
    (l.filter p).map f = (l.map f).filter q ↔ ∀ a ∈ l, p a = q (f a) := by
  constructor
  · intro heq
    have hmono : ∀ a ∈ l, p a = true → q (f a) = true := by
      intro a ha hp
      have hmem : f a ∈ (l.filter p).map f := List.mem_map_of_mem (List.mem_filter.mpr ⟨ha, hp⟩)
      rw [heq] at hmem
      exact (List.mem_filter.mp hmem).2
    have hcount : l.countP p = l.countP (q ∘ f) := by
      have hlength := congrArg List.length heq
      rwa [List.length_map, ← List.countP_eq_length_filter, ← List.countP_eq_length_filter, List.countP_map] at hlength
    clear heq
    induction l with
    | nil => exact fun a ha => absurd ha List.not_mem_nil
    | cons a l ih =>
      obtain ⟨ha, hl⟩ := List.forall_mem_cons.mp hmono
      have hle : l.countP p ≤ l.countP (q ∘ f) := List.countP_mono_left hl
      rw [List.countP_cons, List.countP_cons] at hcount
      refine List.forall_mem_cons.mpr ⟨?_, ih hl ?_⟩
      · cases hp : p a with
        | true => exact (ha hp).symm
        | false =>
          cases hq : q (f a) with
          | false => rfl
          | true =>
            rw [hp, Function.comp_apply, hq] at hcount
            simp only [Bool.false_eq_true, if_false, if_true] at hcount
            omega
      · cases hp : p a with
        | true =>
          rw [hp, Function.comp_apply, ha hp] at hcount
          exact Nat.add_right_cancel hcount
        | false =>
          rw [hp, Function.comp_apply] at hcount
          simp only [Bool.false_eq_true, if_false, Nat.add_zero] at hcount
          omega
  · intro h
    rw [List.filter_map]
    exact congrArg (List.map f) (List.filter_congr h)

/-- A loop that appends for some entries alone goes through those entries. -/
theorem flatMap_if {α β : Type*} (seen : α → Bool) (f : α → β) (l : List α) :
    (l.flatMap fun a => if seen a then [f a] else []) = (l.filter seen).map f := by
  induction l with
  | nil => rfl
  | cons a l ih =>
    rw [List.flatMap_cons, ih]
    cases hseen : seen a with
    | true =>
      rw [List.filter_cons_of_pos hseen]
      rfl
    | false =>
      rw [List.filter_cons_of_neg (by rw [hseen]; exact Bool.false_ne_true)]
      rfl

end Assure.Library
