import Mathlib.Data.Fintype.Card
import Mathlib.Data.List.Basic
import Mathlib.Tactic.Common

/-!
# General recursion

A recursive function is given by its body, which gets the function to call. `approx` lets the calls nest
so deep and no deeper, and `Returns` says that some depth is enough.

A body asks for the results of finitely many calls (`Determined`), which bodies made of calls, binds and
passes over lists do. Then results do not depend on the depth (`approx_mono`, `Returns.unique`), a call
returns if the body does with the results of calls that return (`returns_of`), and what a body makes of
results that have a property holds of all results (`Returns.induct`).

With finitely many arguments, as many levels as there are arguments are enough (`approx_card`). How deep the calls
nest in general, and in which order a body makes them, is not spoken of.
-/

namespace Assure.Library

variable {α β γ δ : Type*}

/-- **What needs the results of finitely many calls.** -/
def Determined (g : (α → Option β) → Option γ) : Prop :=
  ∀ f r, g f = some r → ∃ calls : List α,
    (∀ x ∈ calls, (f x).isSome) ∧ ∀ f', (∀ x ∈ calls, f' x = f x) → g f' = some r

namespace Determined

/-- A constant needs no calls. -/
theorem const (r : Option γ) : Determined fun _ : α → Option β => r :=
  fun _ _ h => ⟨[], nofun, fun _ _ => h⟩

/-- A call needs itself. -/
theorem call (x : α) : Determined fun f : α → Option β => f x := by
  intro f r h
  refine ⟨[x], ?_, ?_⟩
  · intro y hy
    obtain rfl := List.mem_singleton.mp hy
    exact Option.isSome_of_eq_some h
  · intro f' hf'
    exact (hf' x (List.mem_singleton_self x)).trans h

/-- A step followed by another needs the calls of both. -/
theorem bind {g : (α → Option β) → Option γ} {k : γ → (α → Option β) → Option δ}
    (hg : Determined g) (hk : ∀ a, Determined (k a)) : Determined fun f => (g f).bind fun a => k a f := by
  intro f r h
  obtain ⟨a, ha, hr⟩ := Option.bind_eq_some_iff.mp h
  obtain ⟨calls, hcalls, hg⟩ := hg f a ha
  obtain ⟨calls', hcalls', hk⟩ := hk a f r hr
  refine ⟨calls ++ calls', ?_, ?_⟩
  · intro x hx
    exact (List.mem_append.mp hx).elim (hcalls x) (hcalls' x)
  · intro f' hf'
    have ha' := hg f' fun x hx => hf' x (List.mem_append_left _ hx)
    have hr' := hk f' fun x hx => hf' x (List.mem_append_right _ hx)
    exact Option.bind_eq_some_iff.mpr ⟨a, ha', hr'⟩

/-- Working on a result needs no further calls. -/
theorem map {g : (α → Option β) → Option γ} (hg : Determined g) (k : γ → δ) :
    Determined fun f => (g f).map k := by
  have hbind := hg.bind fun a => const (some (k a))
  simpa only [Option.map_eq_bind, Function.comp_def] using hbind

end Determined

section

variable (body : (α → Option β) → α → Option β)

/-- **The function, with calls nested so deep.** -/
def approx : Nat → α → Option β
  | 0 => fun _ => none
  | n + 1 => body (approx n)

/-- **A call returns a result.** -/
def Returns (x : α) (r : β) : Prop := ∃ n, approx body n x = some r

/-- **A call returns.** -/
def Terminates (x : α) : Prop := ∃ r, Returns body x r

variable {body} (hbody : ∀ x, Determined fun f => body f x)

include hbody

/-- Results of fewer calls are kept. -/
theorem approx_succ (n : Nat) : ∀ x r, approx body n x = some r → approx body (n + 1) x = some r := by
  induction n with
  | zero => exact nofun
  | succ n ih =>
    intro x r h
    obtain ⟨calls, hcalls, hr⟩ := hbody x (approx body n) r h
    refine hr _ fun y hy => ?_
    obtain ⟨v, hv⟩ := Option.isSome_iff_exists.mp (hcalls y hy)
    rw [hv, ih y v hv]

/-- A deeper approximation gives every result that a shallower one gives. -/
theorem approx_mono {n m : Nat} (h : n ≤ m) {x : α} {r : β} (hr : approx body n x = some r) :
    approx body m x = some r := by
  induction h with
  | refl => exact hr
  | step _ ih => exact approx_succ hbody _ x r ih

/-- **There is one result.** -/
theorem Returns.unique {x : α} {r r' : β} (h : Returns body x r) (h' : Returns body x r') : r = r' := by
  obtain ⟨n, hn⟩ := h
  obtain ⟨m, hm⟩ := h'
  have hn' := approx_mono hbody (Nat.le_max_left n m) hn
  rw [approx_mono hbody (Nat.le_max_right n m) hm] at hn'
  exact (Option.some.inj hn').symm

/-- **Some depth is enough for finitely many calls.** -/
theorem Determined.eventually {g : (α → Option β) → Option γ} (hg : Determined g) {f : α → Option β}
    (hf : ∀ x r, f x = some r → Returns body x r) {r : γ} (h : g f = some r) :
    ∃ n, ∀ m, n ≤ m → g (approx body m) = some r := by
  obtain ⟨calls, hcalls, hr⟩ := hg f r h
  have hdepth : ∃ n, ∀ y ∈ calls, ∀ m, n ≤ m → approx body m y = f y := by
    clear hr
    induction calls with
    | nil => exact ⟨0, nofun⟩
    | cons y calls ih =>
      obtain ⟨v, hv⟩ := Option.isSome_iff_exists.mp (hcalls y List.mem_cons_self)
      obtain ⟨n, hn⟩ := hf y v hv
      obtain ⟨m, hm⟩ := ih fun z hz => hcalls z (List.mem_cons_of_mem _ hz)
      refine ⟨max n m, ?_⟩
      intro z hz depth hdepth
      rcases List.mem_cons.mp hz with rfl | hz
      · rw [hv, approx_mono hbody (Nat.le_trans (Nat.le_max_left n m) hdepth) hn]
      · exact hm z hz depth (Nat.le_trans (Nat.le_max_right n m) hdepth)
  obtain ⟨n, hn⟩ := hdepth
  exact ⟨n, fun m hm => hr _ fun y hy => hn y hy m hm⟩

/-- **A call returns what the body makes of results that are returned.** -/
theorem returns_of {f : α → Option β} (hf : ∀ x r, f x = some r → Returns body x r) {x : α} {r : β}
    (h : body f x = some r) : Returns body x r := by
  obtain ⟨n, hn⟩ := (hbody x).eventually hbody hf h
  exact ⟨n + 1, hn n (Nat.le_refl n)⟩

omit hbody in
variable (body) in
/-- The results of the calls that terminate. -/
theorem exists_results : ∃ f : α → Option β, (∀ x r, f x = some r → Returns body x r) ∧
    ∀ x, Terminates body x → (f x).isSome := by
  classical
  let f : α → Option β := fun x => if hx : Terminates body x then some hx.choose else none
  refine ⟨f, ?_, ?_⟩
  · intro x r hr
    by_cases hx : Terminates body x
    · rw [show f x = some hx.choose from dif_pos hx] at hr
      obtain rfl := Option.some.inj hr
      exact hx.choose_spec
    · rw [show f x = none from dif_neg hx] at hr
      cases hr
  · intro x hx
    rw [show f x = some hx.choose from dif_pos hx]
    rfl

/-- **A call terminates if the body does** where the results of terminating calls are known. -/
theorem terminates_of {x : α}
    (h : ∀ f : α → Option β, (∀ y r, f y = some r → Returns body y r) →
      (∀ y, Terminates body y → (f y).isSome) → (body f x).isSome) :
    Terminates body x := by
  obtain ⟨f, hf, hterm⟩ := exists_results body
  obtain ⟨r, hr⟩ := Option.isSome_iff_exists.mp (h f hf hterm)
  exact ⟨r, returns_of hbody hf hr⟩

end

/-- **What the body keeps holds of every result.** -/
theorem Returns.induct {body : (α → Option β) → α → Option β} {P : α → β → Prop}
    (h : ∀ f : α → Option β, (∀ x r, f x = some r → P x r) → ∀ x r, body f x = some r → P x r)
    {x : α} {r : β} (hr : Returns body x r) : P x r := by
  obtain ⟨n, hn⟩ := hr
  induction n generalizing x r with
  | zero => cases hn
  | succ n ih => exact h _ (fun x r => ih) x r hn

/-- A call does not return if it always makes another one of the same kind. -/
theorem not_terminates {body : (α → Option β) → α → Option β} {P : α → Prop}
    (h : ∀ f : α → Option β, ∀ x, P x → (∀ y, P y → f y = none) → body f x = none) {x : α} (hx : P x) :
    ¬ Terminates body x := by
  rintro ⟨r, n, hn⟩
  have hnone : ∀ n x, P x → approx body n x = none := by
    intro n
    induction n with
    | zero => exact fun _ _ => rfl
    | succ n ih => exact fun x hx => h _ x hx ih
  rw [hnone n x hx] at hn
  cases hn

/-! ## Finitely many arguments -/

section

variable [Fintype α] {body : (α → Option β) → α → Option β} (hbody : ∀ x, Determined fun f => body f x)

include hbody

omit [Fintype α] in
/-- A level that adds no result is the last one that is needed. -/
theorem approx_stable {n : Nat} (h : ∀ x, (approx body (n + 1) x).isSome → (approx body n x).isSome) {m : Nat}
    (hm : n ≤ m) : approx body m = approx body n := by
  have hsame : approx body (n + 1) = approx body n := by
    funext x
    cases hn : approx body n x with
    | some r => exact approx_succ hbody n x r hn
    | none =>
      cases hsucc : approx body (n + 1) x with
      | none => rfl
      | some r => exact absurd (h x (Option.isSome_of_eq_some hsucc)) (by rw [hn]; exact Bool.false_ne_true)
  induction hm with
  | refl => rfl
  | step _ ih =>
    calc approx body (_ + 1) = body (approx body n) := congrArg body ih
      _ = approx body n := hsame

/-- **As many levels as there are arguments are enough.** -/
theorem approx_card {x : α} {r : β} : approx body (Fintype.card α) x = some r ↔ Returns body x r := by
  constructor
  · exact fun h => ⟨_, h⟩
  · rintro ⟨n, hn⟩
    let done (n : Nat) : Finset α := Finset.univ.filter fun x => (approx body n x).isSome
    -- a level is the last one, or it has a result more than the one before
    have hlevels : ∀ n, (∃ k < n, ∀ x, (approx body (k + 1) x).isSome → (approx body k x).isSome) ∨
        n ≤ (done n).card := by
      intro n
      induction n with
      | zero => exact .inr (Nat.zero_le _)
      | succ n ih =>
        rcases ih with ⟨k, hk, hlast⟩ | hcard
        · exact .inl ⟨k, Nat.lt_succ_of_lt hk, hlast⟩
        · by_cases hlast : ∀ x, (approx body (n + 1) x).isSome → (approx body n x).isSome
          · exact .inl ⟨n, Nat.lt_succ_self n, hlast⟩
          · push Not at hlast
            obtain ⟨y, hnew, hold⟩ := hlast
            refine .inr (Nat.succ_le_of_lt (hcard.trans_lt (Finset.card_lt_card ?_)))
            refine Finset.ssubset_iff_of_subset ?_ |>.mpr ⟨y, by simpa [done] using hnew, by simpa [done] using hold⟩
            intro z hz
            obtain ⟨v, hv⟩ := Option.isSome_iff_exists.mp (Finset.mem_filter.mp hz).2
            exact Finset.mem_filter.mpr ⟨Finset.mem_univ z, Option.isSome_of_eq_some (approx_succ hbody n z v hv)⟩
    rcases hlevels (Fintype.card α + 1) with ⟨k, hk, hlast⟩ | hcard
    · have hdeep := approx_mono hbody (Nat.le_max_left n (Fintype.card α)) hn
      rw [approx_stable hbody hlast (Nat.le_of_lt_succ hk)]
      rwa [approx_stable hbody hlast ((Nat.le_of_lt_succ hk).trans (Nat.le_max_right n _))] at hdeep
    · exact absurd (hcard.trans (Finset.card_le_univ _)) (Nat.not_succ_le_self _)

end

end Assure.Library
