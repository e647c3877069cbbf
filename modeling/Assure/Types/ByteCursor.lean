import Mathlib.Algebra.BigOperators.Group.Finset.Basic
import Assure.Library.FindAll
import Assure.Library.Sweeps

/-!
# Byte cursors

`is_byte_cursor_build` asks whether the pointer that a use line casts to `char *` was filled byte by byte: whether the
names it is aliased to in the function, by assignments of one name to another, are written through with `*p++ = …` often
enough. The aliases are found by sweeps through the assignments, of which there are twenty at most.

The edges are the assignments that the function finds in a body; where its pattern takes more or
fewer than C does is not part of the result. With chains longer than the bound nothing is promised:
the example has one of twenty-one.
-/

namespace Assure

open Assure.Library Pattern Relation

variable (chars : CharClass)

/-! ## The patterns -/

/-- `[A-Za-z_]\w*` -/
def cName : Pattern (List Char) := do
  let c ← one fun c => c.isAlpha || c == '_'
  let cs ← many chars.word
  return c :: cs

/-- `(?!…)` -/
def notBefore (forbids : List Char → Bool) : Pattern Unit := fun cursor =>
  if forbids cursor.rest then [] else [((), cursor)]

/-- `[A-Za-z0-9_.\[(] | ->` -/
def continuesName (rest : List Char) : Bool :=
  rest.head?.any (fun c => c.isAlphanum || ['_', '.', '[', '('].contains c) || ['-', '>'].isPrefixOf rest

/-- **`_strip_block_comments`** -/
def stripBlockComments (text : String) : String :=
  (do
    lit "/*"
    let _ ← lazily (many fun _ => true)
    lit "*/").sub " " text

/-- **`_SIMPLE_ASSIGN`** -/
def simpleAssign : Pattern (List Char × List Char) := do
  boundary chars
  let lhs ← cName chars
  let _ ← many chars.space
  lit "="
  let _ ← many chars.space
  let rhs ← cName chars
  let _ ← many chars.space
  lit ";"
  return (lhs, rhs)

/-- **`_CURSOR_WRITE`** -/
def cursorWrite : Pattern (List Char) := do
  lit "*"
  let _ ← many chars.space
  let name ← cName chars
  let _ ← many chars.space
  lit "++"
  let _ ← many chars.space
  lit "="
  notBefore fun rest => rest.head? == some '='
  return name

/-- **`_CAST_TO_CHARSTAR_RHS`** -/
def castToCharstarRhs : Pattern (List Char) := do
  lit "("
  let _ ← many chars.space
  star do
    orElse (lit "const") (lit "volatile")
    let _ ← many1 chars.space
  optional do
    orElse (lit "unsigned") (lit "signed")
    let _ ← many1 chars.space
  lit "char"
  let _ ← many chars.space
  lit "*"
  let _ ← many chars.space
  lit ")"
  let _ ← many chars.space
  let name ← cName chars
  notBefore continuesName
  return name

/-! ## The classifier -/

/-- The simple assignments of a function body. -/
def simpleAssignments (functionBody : String) : List (List Char × List Char) :=
  (simpleAssign chars).findAll (stripBlockComments functionBody).toList

/-- The aliases of a name, by the assignments. -/
def aliasesBy (assignments : List (List Char × List Char)) (seed : List Char) : Finset (List Char) :=
  sweeps (assignments.flatMap bothWays) 20 {seed}

/-- **`_alias_closure`** -/
def aliasClosure (functionBody : String) (seed : List Char) : Finset (List Char) :=
  aliasesBy (simpleAssignments chars functionBody) seed

/-- The names that are written through, once for each write: `_cursor_write_counts`. -/
def cursorWrites (functionBody : String) : List (List Char) :=
  (cursorWrite chars).findAll (stripBlockComments functionBody).toList

/-- **`is_byte_cursor_build`** -/
def isByteCursorBuild (useLine functionBody : String) (minimumCursorWrites : Nat) : Bool :=
  if useLine = "" ∨ functionBody = "" then false
  else match (castToCharstarRhs chars).search useLine with
    | none => false
    | some (seed, _) =>
      let writes := cursorWrites chars functionBody
      if writes = [] then false
      else decide (minimumCursorWrites ≤ ∑ name ∈ aliasClosure chars functionBody seed, writes.count name)

/-! ## Aliases -/

/-- **Two names are aliased by an assignment** of one to the other. -/
def Aliased (assignments : List (List Char × List Char)) (x y : List Char) : Prop :=
  (x, y) ∈ assignments ∨ (y, x) ∈ assignments

variable {chars} {assignments order : List (List Char × List Char)} {seed : List Char}

/-- Aliasing goes along assignments in both directions. -/
theorem edgeOf_bothWays : EdgeOf (assignments.flatMap bothWays) = Aliased assignments := by
  funext x y
  refine propext ⟨fun h => ?_, fun h => ?_⟩
  · obtain ⟨⟨a, b⟩, hin, h⟩ := List.mem_flatMap.mp h
    rcases List.mem_pair.mp h with heq | heq
    · obtain ⟨rfl, rfl⟩ := Prod.mk.inj heq
      exact .inl hin
    · obtain ⟨rfl, rfl⟩ := Prod.mk.inj heq
      exact .inr hin
  · rcases h with h | h
    · exact List.mem_flatMap.mpr ⟨(x, y), h, List.mem_cons_self⟩
    · exact List.mem_flatMap.mpr ⟨(y, x), h, List.mem_cons_of_mem _ List.mem_cons_self⟩

/-- It does not depend on their order. -/
theorem aliased_perm (h : order.Perm assignments) : Aliased order = Aliased assignments := by
  funext x y
  rw [Aliased, Aliased, h.mem_iff, h.mem_iff]

/-- What lies within twenty assignments of the seed is found. -/
theorem mem_aliasesBy {y : List Char} (h : Within (Aliased assignments) 20 seed y) : y ∈ aliasesBy assignments seed := by
  rw [← edgeOf_bothWays] at h
  exact mem_sweeps_of_within (Finset.mem_singleton_self seed) h

/-- What is found is reached by assignments. -/
theorem reaches_of_mem_aliasesBy {y : List Char} (h : y ∈ aliasesBy assignments seed) :
    ReflTransGen (Aliased assignments) seed y := by
  obtain ⟨u, hu, hreach⟩ := reaches_of_mem_sweeps h
  obtain rfl := Finset.mem_singleton.mp hu
  rw [← edgeOf_bothWays]
  exact hreach

/-- The names that are within twenty assignments are the component, in any order. -/
theorem mem_aliasesBy_perm (hperm : order.Perm assignments)
    (h : ∀ y, ReflTransGen (Aliased assignments) seed y → Within (Aliased assignments) 20 seed y) (y : List Char) :
    y ∈ aliasesBy order seed ↔ ReflTransGen (Aliased assignments) seed y := by
  rw [← aliased_perm hperm] at h ⊢
  exact ⟨reaches_of_mem_aliasesBy, fun hreach => mem_aliasesBy (h y hreach)⟩

/-- A name that is further away is missed in some order. -/
theorem within_of_forall_perm
    (h : ∀ order : List (List Char × List Char), order.Perm assignments → ∀ y,
      ReflTransGen (Aliased assignments) seed y →
      y ∈ aliasesBy order seed) {y : List Char} (hreach : ReflTransGen (Aliased assignments) seed y) :
    Within (Aliased assignments) 20 seed y := by
  obtain ⟨order, hperm, heq⟩ := exists_perm_sweeps_eq assignments {seed} 20
  have hin := h order hperm y hreach
  rw [aliasesBy, heq] at hin
  obtain ⟨u, hu, hwithin⟩ := mem_ball.mp hin
  obtain rfl := Finset.mem_singleton.mp hu
  rw [← edgeOf_bothWays]
  exact hwithin

/-- The verdict depends on the aliases and on the writes. -/
theorem isByteCursorBuild_congr {useLine body body' : String} {minimum : Nat}
    (hwrites : (cursorWrites chars body').Perm (cursorWrites chars body))
    (haliases : ∀ way ∈ (castToCharstarRhs chars).search useLine,
      aliasClosure chars body' way.1 = aliasClosure chars body way.1) :
    isByteCursorBuild chars useLine body' minimum = isByteCursorBuild chars useLine body minimum := by
  have hempty : ∀ text : String, text = "" → cursorWrites chars text = [] := by
    rintro text rfl
    rfl
  have hnil : cursorWrites chars body' = [] ↔ cursorWrites chars body = [] := by
    rw [← List.length_eq_zero_iff, ← List.length_eq_zero_iff, hwrites.length_eq]
  by_cases hwritten : cursorWrites chars body = []
  · have hwritten' := hnil.mpr hwritten
    have hfalse : ∀ text : String, cursorWrites chars text = [] → isByteCursorBuild chars useLine text minimum =
        false := by
      intro text htext
      rw [isByteCursorBuild]
      split
      · rfl
      · cases (castToCharstarRhs chars).search useLine with
        | none => rfl
        | some way => exact if_pos htext
    rw [hfalse body hwritten, hfalse body' hwritten']
  · have hbody : body ≠ "" := fun h => hwritten (hempty body h)
    have hbody' : body' ≠ "" := fun h => hwritten (hnil.mp (hempty body' h))
    rw [isByteCursorBuild, isByteCursorBuild]
    by_cases hline : useLine = ""
    · rw [if_pos (.inl hline), if_pos (.inl hline)]
    · rw [if_neg (not_or.mpr ⟨hline, hbody'⟩), if_neg (not_or.mpr ⟨hline, hbody⟩)]
      cases hcast : (castToCharstarRhs chars).search useLine with
      | none => rfl
      | some way =>
        have hsame := haliases way hcast
        dsimp only
        rw [if_neg hwritten, if_neg (fun h => hwritten (hnil.mp h)), hsame]
        refine congrArg (fun total => decide (minimum ≤ total)) (Finset.sum_congr rfl fun name _ => ?_)
        exact hwrites.count_eq name

/-- **The aliases that are found.** Every name that a chain of at most twenty assignments joins to the seed is found,
and none outside the seed's component. The component is what is found in every order of the assignments exactly if it
has no name that is further away; the verdict on a use line that casts the seed is then the same for every function
body with the same assignments and the same writes, whatever their order. -/
theorem aliasClosure_component (chars : CharClass) (functionBody : String) (seed : List Char) :
    let assignments := simpleAssignments chars functionBody
    let component := ReflTransGen (Aliased assignments) seed
    (∀ y, Within (Aliased assignments) 20 seed y → y ∈ aliasClosure chars functionBody seed) ∧
    (∀ y ∈ aliasClosure chars functionBody seed, component y) ∧
    ((∀ y, component y → Within (Aliased assignments) 20 seed y) ↔
      ∀ order : List (List Char × List Char), order.Perm assignments →
        ∀ y, y ∈ aliasesBy order seed ↔ component y) ∧
    ((∀ y, component y → Within (Aliased assignments) 20 seed y) →
      ∀ (functionBody' useLine : String) (minimum : Nat), (simpleAssignments chars functionBody').Perm assignments →
        (cursorWrites chars functionBody').Perm (cursorWrites chars functionBody) →
        (∀ way ∈ (castToCharstarRhs chars).search useLine, way.1 = seed) →
        isByteCursorBuild chars useLine functionBody' minimum =
          isByteCursorBuild chars useLine functionBody minimum) := by
  intro assignments component
  refine ⟨fun y => ?_, fun y => ?_, ⟨?_, ?_⟩, ?_⟩
  · exact @mem_aliasesBy assignments seed y
  · exact @reaches_of_mem_aliasesBy assignments seed y
  · intro hnear order hperm y
    exact mem_aliasesBy_perm hperm hnear y
  · intro hall y hy
    exact within_of_forall_perm (fun order hperm y hy => (hall order hperm y).mpr hy) hy
  · intro hnear body' useLine minimum hperm hwrites hcast
    refine isByteCursorBuild_congr hwrites fun way hway => ?_
    rw [hcast way hway]
    refine Finset.ext fun y => ?_
    have hsame : y ∈ aliasesBy (simpleAssignments chars body') seed ↔ component y := mem_aliasesBy_perm hperm hnear y
    exact hsame.trans (mem_aliasesBy_perm (.refl assignments) hnear y).symm

/-- A chain of twenty-one assignments, the furthest from `a` first. -/
def longChain : String := "v=u;u=t;t=s;s=r;r=q;q=p;p=o;o=n;n=m;m=l;l=k;k=j;j=i;i=h;h=g;g=f;f=e;e=d;d=c;c=b;b=a;"

/-- The name at a place of the chain. -/
def chainName (i : Nat) : List Char := [Char.ofNat (97 + i)]

/-- The place of a name in the chain. -/
def chainPlace (name : List Char) : Nat := (name.headD 'a').toNat - 97

/-- The assignments of the chain. -/
def chainAssignments : List (List Char × List Char) :=
  (List.range 21).reverse.map fun i => (chainName (i + 1), chainName i)

/-- The assignments of the long chain, as they are found. -/
theorem simpleAssignments_longChain : simpleAssignments .ascii longChain = chainAssignments := by decide +kernel

/-- Each sweep goes one place further. -/
theorem chainPlace_le_of_mem_sweeps (n : Nat) : ∀ y ∈ (sweep (chainAssignments.flatMap bothWays))^[n] {['a']},
    chainPlace y ≤ n := by
  have hplaces : ∀ pair ∈ chainAssignments, chainPlace pair.1 = chainPlace pair.2 + 1 := by decide
  induction n with
  | zero =>
    intro y hy
    rw [Finset.mem_singleton.mp hy]
    exact Nat.le_refl 0
  | succ n ih =>
    rw [Function.iterate_succ_apply']
    refine sweep_subset_of_descending (fun pair => chainPlace pair.2) n (fun y => chainPlace y ≤ n + 1)
      (by decide) (fun y hy => Nat.le_succ_of_le (ih y hy)) ?_ ?_
    · intro pair hpair hkey edge hedge
      have hplace := hplaces pair hpair
      rcases List.mem_pair.mp hedge with rfl | rfl
      · exact Nat.le_succ_of_le hkey
      · exact hplace.le.trans (Nat.succ_le_succ hkey)
    · intro pair hpair hkey edge hedge hsource
      have hplace := hplaces pair hpair
      have hle := ih _ hsource
      rcases List.mem_pair.mp hedge with rfl | rfl
      · exact absurd (hplace ▸ hle) (by omega)
      · exact absurd hle (Nat.not_le.mpr hkey)

/-- Each name of the chain is reached from the first. -/
theorem reaches_chainName (i : Nat) (hi : i ≤ 21) : ReflTransGen (Aliased chainAssignments) ['a'] (chainName i) := by
  have hnext : ∀ i < 21, (chainName (i + 1), chainName i) ∈ chainAssignments := by decide
  induction i with
  | zero => exact .refl
  | succ i ih => exact (ih (Nat.le_of_succ_le hi)).tail (.inr (hnext i hi))

/-- A sweep goes at most one name further, since the chain is written backwards. -/
theorem not_mem_sweeps_of_lt {n : Nat} {y : List Char} (hy : n < chainPlace y) :
    y ∉ (sweep (chainAssignments.flatMap bothWays))^[n] {['a']} :=
  fun h => Nat.not_le.mpr hy (chainPlace_le_of_mem_sweeps n y h)

/-- So twenty sweeps do not get to the last name. -/
theorem not_mem_aliasesBy_chain : chainName 21 ∉ aliasesBy chainAssignments ['a'] := by
  rw [aliasesBy, sweeps_eq_iterate]
  exact not_mem_sweeps_of_lt (by decide)

/-- **A chain of twenty-one assignments is not followed to its end.** -/
theorem aliasClosure_longChain : ¬ ∀ y, y ∈ aliasClosure .ascii longChain ['a'] ↔
    ReflTransGen (Aliased (simpleAssignments .ascii longChain)) ['a'] y := by
  rw [aliasClosure, simpleAssignments_longChain]
  intro h
  refine not_mem_aliasesBy_chain ?_
  rw [h]
  exact reaches_chainName 21 (Nat.le_refl 21)

end Assure
