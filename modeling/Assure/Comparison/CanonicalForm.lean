import Assure.Comparison.Kquery
import Mathlib.Logic.Relation

/-!
# Negations in expressions

KLEE has no negation: `!c` is printed `(Eq false c)`. Two rewritings leave the value of an expression as
it is (`Rewrites.eval_eq`): a double negation goes away, and a `Select` with a negated condition becomes
one with its branches swapped.

`canonical` is the expression after all of them, from the operands up. A rewriting step does not change
it (`Rewrites.canonical_eq`), except that three negations on top of one another leave one of them, which
may be written in another way than the others.
-/

namespace Assure

open Assure.Library

/-! ## Negations -/

section

variable {α : Type} (label : α → String)

/-- **`_is_not`**: the negated operand. -/
def isNot : RoseTree α → Option (RoseTree α)
  | .node a [x, y] =>
    if label a = "Eq" then
      if label x.label = "false" then some y
      else if label y.label = "false" then some x
      else none
    else none
  | _ => none

/-- What is negated twice. -/
def doubleNot (t : RoseTree α) : Option (RoseTree α) := (isNot label t).bind (isNot label)

variable {label}

/-- A negation and its operand. -/
theorem isNot_eq_some {t x : RoseTree α} (h : isNot label t = some x) :
    ∃ a f, label a = "Eq" ∧ label f.label = "false" ∧ (t = .node a [f, x] ∨ t = .node a [x, f]) := by
  unfold isNot at h
  split at h
  · rename_i a u v
    split at h
    · rename_i heq
      split at h
      · rename_i hfalse
        cases h
        exact ⟨a, u, heq, hfalse, .inl rfl⟩
      · split at h
        · rename_i hfalse
          cases h
          exact ⟨a, v, heq, hfalse, .inr rfl⟩
        · cases h
    · cases h
  · cases h

/-- Another tree with the same labels on top. -/
theorem isNot_map {β : Type} {label' : β → String} {f : α → β} (hf : ∀ a, label' (f a) = label a) :
    ∀ t : RoseTree α, isNot label' (t.map f) = (isNot label t).map (RoseTree.map f)
  | .node a [x, y] => by
    rw [RoseTree.map_node]
    show (if label' (f a) = "Eq" then if label' (x.map f).label = "false" then some (y.map f)
      else if label' (y.map f).label = "false" then some (x.map f) else none else none) = _
    rw [RoseTree.label_map, RoseTree.label_map, hf, hf, hf, isNot]
    split
    · split
      · rfl
      · split <;> rfl
    · rfl
  | .node a [] | .node a [_] | .node a (_ :: _ :: _ :: _) => by
    rw [RoseTree.map_node]
    rfl

end

/-! ## Rewriting -/

/-- **One rewriting step** in an expression, a double negation taken away only where `P` holds. -/
inductive Rewrites (P : Kquery → Kquery → Prop) : Kquery → Kquery → Prop
  | doubleNot {t x : Kquery} (h : doubleNot KqueryNode.label t = some x) (hP : P t x) : Rewrites P t x
  | select {a : KqueryNode} {cond c x y : Kquery} (ha : a.label = "Select")
    (h : isNot KqueryNode.label cond = some c) : Rewrites P (.node a [cond, x, y]) (.node a [c, y, x])
  | operand {a : KqueryNode} {l r : List Kquery} {c c' : Kquery} (h : Rewrites P c c') :
    Rewrites P (.node a (l ++ c :: r)) (.node a (l ++ c' :: r))

/-! ## Values -/

/-- A constant has the value of its label, or none. -/
theorem eval_false {env : String → Nat → BitVec 8} {t : Kquery} (h : t.label.label = "false")
    (hvalid : t.eval env ≠ .invalid) : t.eval env = .bits 1 0#1 := by
  obtain ⟨⟨label, type⟩, operands⟩ := t
  obtain rfl : label = "false" := h
  rw [Kquery.eval_node] at hvalid ⊢
  match operands with
  | [] => rfl
  | [_] | [_, _] | [_, _, _] | _ :: _ :: _ :: _ :: _ => exact absurd rfl hvalid

/-- The value of a bit. -/
theorem bits_of_toBits {v : Value} {b : BitVec 1} (h : v.toBits 1 = some b) : v = .bits 1 b := by
  cases v with
  | number n => cases h
  | bits w c =>
    rw [Value.toBits] at h
    split at h
    · rename_i hw
      subst hw
      obtain rfl := Option.some.inj h
      rw [BitVec.setWidth_eq]
    · cases h
  | _ => cases h

/-- A comparison with false has a value only where the other operand is one bit, and then it is the
negation of that bit. -/
theorem interpret_not {env : String → Nat → BitVec 8} {node : KqueryNode} (hnode : node.label = "Eq")
    {v : Value} (hvalid : interpret env node [.bits 1 0#1, v] ≠ .invalid) :
    ∃ b, v = .bits 1 b ∧
      interpret env node [.bits 1 0#1, v] = .bits 1 (BitVec.ofBool (0#1 == b)) := by
  obtain ⟨label, type⟩ := node
  obtain rfl : label = "Eq" := hnode
  have hrun : interpret env ⟨"Eq", type⟩ [.bits 1 0#1, v] =
      binary 1 (· == ·) (fun r => .bits 1 (.ofBool r)) (.bits 1 0#1) v := rfl
  rw [hrun] at hvalid ⊢
  cases hv : v.toBits 1 with
  | none => exact absurd (binary_invalid (.inr hv)) hvalid
  | some b =>
    obtain rfl := bits_of_toBits hv
    refine ⟨b, rfl, ?_⟩
    unfold binary
    rw [hv]
    rfl

/-- A valid expression has valid operands. -/
theorem valid_operand {env : String → Nat → BitVec 8} {a : KqueryNode} {operands : List Kquery}
    (h : Kquery.eval env (.node a operands) ≠ .invalid) {c : Kquery} (hc : c ∈ operands) :
    c.eval env ≠ .invalid := by
  intro hinvalid
  rw [Kquery.eval_node] at h
  exact h (interpret_strict env a (List.mem_map.mpr ⟨c, hc, hinvalid⟩))

/-- **The value of a negation.** -/
theorem eval_isNot {env : String → Nat → BitVec 8} {t x : Kquery}
    (h : isNot KqueryNode.label t = some x) (hvalid : t.eval env ≠ .invalid) :
    ∃ b, x.eval env = .bits 1 b ∧ t.eval env = .bits 1 (BitVec.ofBool (0#1 == b)) := by
  obtain ⟨a, f, ha, hf, ht⟩ := isNot_eq_some h
  have hcomm : interpret env a [x.eval env, Kquery.eval env f] =
      interpret env a [Kquery.eval env f, x.eval env] :=
    interpret_comm env (by simp [ha]) _ _
  have hmem : Kquery.eval env f ≠ .invalid := by
    rcases ht with rfl | rfl
    · exact valid_operand hvalid (by simp)
    · exact valid_operand hvalid (by simp)
  have heval : t.eval env = interpret env a [.bits 1 0#1, x.eval env] := by
    rw [← eval_false hf hmem]
    rcases ht with rfl | rfl
    · exact Kquery.eval_node _ _ _
    · exact (Kquery.eval_node _ _ _).trans hcomm
  rw [heval] at hvalid ⊢
  exact interpret_not ha hvalid

/-- Where the larger expression has a value, two negations on top of each other leave the value of
what is below them. -/
theorem eval_doubleNot {env : String → Nat → BitVec 8} {t x : Kquery}
    (h : doubleNot KqueryNode.label t = some x) (hvalid : t.eval env ≠ .invalid) :
    x.eval env = t.eval env := by
  obtain ⟨inner, hinner, hx⟩ := Option.bind_eq_some_iff.mp h
  obtain ⟨b, hb, ht⟩ := eval_isNot hinner hvalid
  obtain ⟨c, hc, hb'⟩ := eval_isNot hx (by rw [hb]; exact nofun)
  have hbits : ∀ c : BitVec 1, c = BitVec.ofBool (0#1 == BitVec.ofBool (0#1 == c)) := by decide
  rw [hb] at hb'
  obtain rfl : b = BitVec.ofBool (0#1 == c) := by
    injection hb' with _ hb'
  rw [hc, ht, ← hbits c]

/-- Taking the negation off a condition and exchanging the arms leaves the value of the selection.
-/
theorem eval_select {env : String → Nat → BitVec 8} {a : KqueryNode} {cond c x y : Kquery}
    (ha : a.label = "Select") (h : isNot KqueryNode.label cond = some c)
    (hvalid : Kquery.eval env (.node a [cond, x, y]) ≠ .invalid) :
    Kquery.eval env (.node a [c, y, x]) = Kquery.eval env (.node a [cond, x, y]) := by
  obtain ⟨label, type⟩ := a
  obtain rfl : label = "Select" := ha
  obtain ⟨b, hb, hcond⟩ := eval_isNot h (valid_operand hvalid List.mem_cons_self)
  have hselect : ∀ (v : BitVec 1) (x y : Value), interpret env ⟨"Select", type⟩ [.bits 1 v, x, y] =
      select ((KqueryNode.width? ⟨"Select", type⟩).getD 1) (.bits 1 v) x y := fun _ _ _ => rfl
  rw [Kquery.eval_node, Kquery.eval_node]
  show interpret env _ [c.eval env, y.eval env, x.eval env] =
    interpret env _ [cond.eval env, x.eval env, y.eval env]
  rw [hb, hcond, hselect, hselect]
  generalize (KqueryNode.width? ⟨"Select", type⟩).getD 1 = width
  have hbit : ∀ v : BitVec 1, (Value.bits 1 v).toBits 1 = some v :=
    fun v => by rw [Value.toBits, if_pos rfl, BitVec.setWidth_eq]
  have hcases : ∀ b : BitVec 1, b = 0#1 ∨ b = 1#1 := by decide
  unfold select
  rw [hbit, hbit]
  cases (x.eval env).toBits width <;> cases (y.eval env).toBits width
  · rfl
  · rfl
  · rfl
  · rcases hcases b with rfl | rfl <;> rfl

section

variable {P : Kquery → Kquery → Prop}

/-- **Rewriting keeps the value** of an expression that has one. -/
theorem Rewrites.eval_eq {env : String → Nat → BitVec 8} {t t' : Kquery} (h : Rewrites P t t')
    (hvalid : t.eval env ≠ .invalid) : t'.eval env = t.eval env := by
  induction h with
  | doubleNot h => exact eval_doubleNot h hvalid
  | select ha h => exact eval_select ha h hvalid
  | operand h ih =>
    have hc := ih (valid_operand hvalid (by simp))
    rw [Kquery.eval_node, Kquery.eval_node, List.map_append, List.map_append, List.map_cons,
      List.map_cons, hc]

/-- Any number of steps keeps the value, by induction on the steps, because each step keeps it and
so leaves a valid expression for the next. -/
theorem eval_eq_of_rewrites {env : String → Nat → BitVec 8} {t t' : Kquery}
    (h : Relation.ReflTransGen (Rewrites P) t t') (hvalid : t.eval env ≠ .invalid) :
    t'.eval env = t.eval env := by
  induction h with
  | refl => rfl
  | tail _ hstep ih => rw [hstep.eval_eq (by rwa [ih]), ih]

end

/-! ## Canonical form -/

/-- A `Select` with a negated condition, rewritten. -/
def swapArms : Kquery → Option Kquery
  | .node a [cond, x, y] =>
    if a.label = "Select" then (isNot KqueryNode.label cond).map fun c => .node a [c, y, x] else none
  | _ => none

/-- A node, rewritten. -/
def redex (t : Kquery) : Option Kquery := (doubleNot KqueryNode.label t).or (swapArms t)

/-- **The canonical form**: the operands first, then the node. -/
def Kquery.canonical : Kquery → Kquery :=
  RoseTree.fold fun a operands => (redex (.node a operands)).getD (.node a operands)

/-- **Nothing to rewrite.** -/
inductive Irreducible : Kquery → Prop
  | node {a : KqueryNode} {operands : List Kquery} (h : redex (.node a operands) = none)
    (hoperands : ∀ c ∈ operands, Irreducible c) : Irreducible (.node a operands)

/-- The canonical form is built from the operands upwards: normalise the operands first, then take
the one step that is possible at the root, if there is one. -/
theorem Kquery.canonical_node (a : KqueryNode) (operands : List Kquery) :
    Kquery.canonical (.node a operands) =
      (redex (.node a (operands.map Kquery.canonical))).getD (.node a (operands.map Kquery.canonical)) :=
  RoseTree.fold_node _ _ _

/-- An expression in which no step is possible has none at its root. -/
theorem Irreducible.redex_eq {t : Kquery} (h : Irreducible t) : redex t = none := by
  cases h with
  | node h _ => exact h

/-- What is negated in an irreducible expression. -/
theorem Irreducible.isNot_operand {t x : Kquery} (h : Irreducible t)
    (hx : isNot KqueryNode.label t = some x) : Irreducible x ∧ isNot KqueryNode.label x = none := by
  have hnone := (Option.or_eq_none_iff.mp h.redex_eq).1
  rw [Assure.doubleNot, hx] at hnone
  refine ⟨?_, hnone⟩
  cases h with
  | node _ hoperands =>
    obtain ⟨a, f, -, -, heq | heq⟩ := isNot_eq_some hx <;> cases heq <;> exact hoperands x (by simp)

/-- A selection is no comparison, so it is not read as a negation. -/
theorem isNot_select {a : KqueryNode} (ha : a.label = "Select") (operands : List Kquery) :
    isNot KqueryNode.label (.node a operands) = none := by
  cases h : isNot KqueryNode.label (.node a operands) with
  | none => rfl
  | some x =>
    obtain ⟨b, f, hb, -, heq | heq⟩ := isNot_eq_some h <;> cases heq <;>
      exact absurd (ha.symm.trans hb) (by decide)

/-- Over operands in which no step is possible one step at the root is enough: what it gives is
irreducible again. -/
theorem irreducible_of_redex {a : KqueryNode} {operands : List Kquery} {t : Kquery}
    (hoperands : ∀ c ∈ operands, Irreducible c) (h : redex (.node a operands) = some t) :
    Irreducible t := by
  rcases Option.or_eq_some_iff.mp h with hnot | ⟨-, hswap⟩
  · obtain ⟨inner, hinner, hx⟩ := Option.bind_eq_some_iff.mp hnot
    have hmem : inner ∈ operands := by
      obtain ⟨b, f, -, -, heq | heq⟩ := isNot_eq_some hinner <;> cases heq <;> simp
    exact ((hoperands inner hmem).isNot_operand hx).1
  · unfold swapArms at hswap
    split at hswap
    · split at hswap
      · rename_i b cond x y heq ha
        cases heq
        obtain ⟨c, hc, rfl⟩ := Option.map_eq_some_iff.mp hswap
        obtain ⟨hirr, hnot⟩ := (hoperands cond (by simp)).isNot_operand hc
        refine .node ?_ ?_
        · rw [redex, doubleNot, isNot_select ha, swapArms, if_pos ha, hnot]
          rfl
        · intro d hd
          simp only [List.mem_cons, List.not_mem_nil, or_false] at hd
          rcases hd with rfl | rfl | rfl
          · exact hirr
          · exact hoperands _ (by simp)
          · exact hoperands _ (by simp)
      · cases hswap
    · cases hswap

/-- A canonical form has nothing to rewrite. -/
theorem canonical_irreducible (t : Kquery) : Irreducible t.canonical := by
  induction t using RoseTree.induct with
  | h a operands ih =>
    rw [Kquery.canonical_node]
    have hoperands : ∀ c ∈ operands.map Kquery.canonical, Irreducible c := by
      intro c hc
      obtain ⟨d, hd, rfl⟩ := List.mem_map.mp hc
      exact ih d hd
    cases h : redex (.node a (operands.map Kquery.canonical)) with
    | none => exact .node h hoperands
    | some t => exact irreducible_of_redex hoperands h

/-- An expression with nothing to rewrite is its canonical form. -/
theorem Irreducible.canonical_eq {t : Kquery} (h : Irreducible t) : t.canonical = t := by
  induction h with
  | @node a operands h _ ih =>
    have hmap : operands.map Kquery.canonical = operands := by
      rw [List.map_congr_left ih, List.map_id']
    rw [Kquery.canonical_node, hmap, h]
    rfl

/-! ## Rewriting and the canonical form -/

/-- `false` is a number without a type. -/
inductive Constants : Kquery → Prop
  | node {a : KqueryNode} {operands : List Kquery}
    (h : a.label = "false" → a.type = none ∧ operands = []) (hoperands : ∀ c ∈ operands, Constants c) :
    Constants (.node a operands)

/-- The constant `false`. -/
def falseLeaf : Kquery := .node ⟨"false", none⟩ []

/-- Where the constants are well formed, a node that says false is the leaf and has no operands. -/
theorem Constants.eq_falseLeaf {t : Kquery} (h : Constants t) (hlabel : t.label.label = "false") :
    t = falseLeaf := by
  cases h with
  | @node a operands h _ =>
    obtain ⟨label, type⟩ := a
    obtain rfl : label = "false" := hlabel
    obtain ⟨rfl, rfl⟩ := h rfl
    rfl

/-- The constant is its own canonical form. -/
theorem canonical_falseLeaf : falseLeaf.canonical = falseLeaf := by
  rw [falseLeaf, Kquery.canonical_node]
  rfl

/-- The operands of an expression with well-formed constants have well-formed constants. -/
theorem Constants.operand {a : KqueryNode} {operands : List Kquery} (h : Constants (.node a operands))
    {c : Kquery} (hc : c ∈ operands) : Constants c := by
  cases h with
  | node _ hoperands => exact hoperands c hc

/-- A rewritten node has operands of the operands. -/
theorem constants_of_redex {t t' : Kquery} (ht : Constants t) (h : redex t = some t') :
    Constants t' := by
  have hnot : ∀ {s x : Kquery}, Constants s → isNot KqueryNode.label s = some x → Constants x := by
    intro s x hs hx
    obtain ⟨b, f, -, -, rfl | rfl⟩ := isNot_eq_some hx
    · exact hs.operand (by simp)
    · exact hs.operand (by simp)
  rcases Option.or_eq_some_iff.mp h with hdouble | ⟨-, hswap⟩
  · obtain ⟨inner, hinner, hx⟩ := Option.bind_eq_some_iff.mp hdouble
    exact hnot (hnot ht hinner) hx
  · unfold swapArms at hswap
    split at hswap
    · rename_i a cond x y
      split at hswap
      · rename_i ha
        obtain ⟨c, hc, rfl⟩ := Option.map_eq_some_iff.mp hswap
        refine .node (fun hfalse => absurd (ha.symm.trans hfalse) (by decide)) ?_
        intro d hd
        simp only [List.mem_cons, List.not_mem_nil, or_false] at hd
        rcases hd with rfl | rfl | rfl
        · exact hnot (ht.operand List.mem_cons_self) hc
        · exact ht.operand (by simp)
        · exact ht.operand (by simp)
      · cases hswap
    · cases hswap

/-- Normalising brings no constant into the expression that was not well formed before. -/
theorem Constants.canonical {t : Kquery} (h : Constants t) : Constants t.canonical := by
  induction h with
  | @node a operands h _ ih =>
    rw [Kquery.canonical_node]
    have hnode : Constants (.node a (operands.map Kquery.canonical)) := by
      refine .node (fun hlabel => ?_) fun c hc => ?_
      · obtain ⟨htype, rfl⟩ := h hlabel
        exact ⟨htype, rfl⟩
      · obtain ⟨d, hd, rfl⟩ := List.mem_map.mp hc
        exact ih d hd
    cases hredex : redex (.node a (operands.map Kquery.canonical)) with
    | none => exact hnode
    | some t => exact constants_of_redex hnode hredex

/-- A negation written like `t`, of another operand. -/
def withOperand : Kquery → Kquery → Kquery
  | .node a [x, y], z => if x.label.label = "false" then .node a [x, z] else .node a [z, y]
  | t, _ => t

/-- Exchanging what is negated gives the negation of the new operand: the shape on top is kept. -/
theorem isNot_withOperand {t x : Kquery} (ht : Constants t) (h : isNot KqueryNode.label t = some x)
    {z : Kquery} (hz : Constants z) : isNot KqueryNode.label (withOperand t z) = some z := by
  obtain ⟨a, f, ha, hf, rfl | rfl⟩ := isNot_eq_some h
  · rw [withOperand, if_pos hf, isNot, if_pos ha, if_pos hf]
  · rw [withOperand]
    split
    · rename_i hx
      rw [isNot, if_pos ha, if_pos hx]
    · rw [isNot, if_pos ha]
      split
      · -- both operands are `false`
        rename_i hzfalse
        rw [hz.eq_falseLeaf hzfalse, (ht.operand (by simp)).eq_falseLeaf hf]
      · rfl

/-- Normalising the operands of a negation leaves it a negation, of the canonical form of what it
negated. -/
theorem map_canonical_not {t x : Kquery} (ht : Constants t) (h : isNot KqueryNode.label t = some x) :
    ∃ a operands, t = .node a operands ∧ operands.length = 2 ∧
      .node a (operands.map Kquery.canonical) = withOperand t x.canonical := by
  obtain ⟨a, f, ha, hf, rfl | rfl⟩ := isNot_eq_some h
  · refine ⟨a, _, rfl, rfl, ?_⟩
    rw [withOperand, if_pos hf, (ht.operand List.mem_cons_self).eq_falseLeaf hf]
    exact congrArg (fun c => RoseTree.node a [c, _]) canonical_falseLeaf
  · refine ⟨a, _, rfl, rfl, ?_⟩
    have hleaf := (ht.operand (c := f) (by simp)).eq_falseLeaf hf
    rw [withOperand]
    split
    · rename_i hx
      rw [(ht.operand List.mem_cons_self).eq_falseLeaf hx, hleaf]
      exact congrArg (fun c => RoseTree.node a [c, _]) canonical_falseLeaf
    · rw [hleaf]
      exact congrArg (fun c => RoseTree.node a [_, c]) canonical_falseLeaf

/-- **The canonical form of a negation.** -/
theorem canonical_not {t x : Kquery} (ht : Constants t) (h : isNot KqueryNode.label t = some x) :
    t.canonical = (isNot KqueryNode.label x.canonical).getD (withOperand t x.canonical) := by
  have hx : Constants x := by
    obtain ⟨a, f, -, -, rfl | rfl⟩ := isNot_eq_some h
    · exact ht.operand (by simp)
    · exact ht.operand (by simp)
  obtain ⟨a, operands, hnode, hlength, hmap⟩ := map_canonical_not ht h
  have hredex : redex (withOperand t x.canonical) = isNot KqueryNode.label x.canonical := by
    have hswap : swapArms (withOperand t x.canonical) = none := by
      rw [← hmap]
      unfold swapArms
      split
      · rename_i heq
        have hthree := congrArg List.length (RoseTree.node.inj heq).2
        rw [List.length_map, hlength] at hthree
        cases hthree
      · rfl
    rw [redex, hswap, Option.or_none, doubleNot, isNot_withOperand ht h hx.canonical]
    rfl
  rw [← hredex, ← hmap]
  conv_lhs => rw [hnode]
  exact Kquery.canonical_node a operands

/-- The negation that is left of three is written as the one that went. -/
def SpelledAlike (t x : Kquery) : Prop :=
  ∀ z, isNot KqueryNode.label x.canonical = some z → x.canonical = withOperand t z

/-- The first kind of step does not change the canonical form, if the two ends spell their nodes
alike. -/
theorem canonical_doubleNot {t x : Kquery} (ht : Constants t)
    (h : doubleNot KqueryNode.label t = some x) (halike : SpelledAlike t x) :
    t.canonical = x.canonical := by
  obtain ⟨inner, hinner, hx⟩ := Option.bind_eq_some_iff.mp h
  have hinnerConst : Constants inner := by
    obtain ⟨a, f, -, -, rfl | rfl⟩ := isNot_eq_some hinner
    · exact ht.operand (by simp)
    · exact ht.operand (by simp)
  have hxConst : Constants x := by
    obtain ⟨a, f, -, -, rfl | rfl⟩ := isNot_eq_some hx
    · exact hinnerConst.operand (by simp)
    · exact hinnerConst.operand (by simp)
  rw [canonical_not ht hinner, canonical_not hinnerConst hx]
  cases hz : isNot KqueryNode.label x.canonical with
  | none =>
    rw [Option.getD_none, isNot_withOperand hinnerConst hx hxConst.canonical]
    rfl
  | some z =>
    -- three negations
    rw [Option.getD_some, ((canonical_irreducible x).isNot_operand hz).2, halike z hz]
    rfl

/-- The second kind of step does not change the canonical form: both sides of it normalise to the
same selection. -/
theorem canonical_select {a : KqueryNode} {cond c x y : Kquery} (hcond : Constants cond)
    (ha : a.label = "Select") (h : isNot KqueryNode.label cond = some c) :
    Kquery.canonical (.node a [cond, x, y]) = Kquery.canonical (.node a [c, y, x]) := by
  have hc : Constants c := by
    obtain ⟨a, f, -, -, rfl | rfl⟩ := isNot_eq_some h
    · exact hcond.operand (by simp)
    · exact hcond.operand (by simp)
  have hnode : ∀ u v w : Kquery, Kquery.canonical (.node a [u, v, w]) =
      ((isNot KqueryNode.label u.canonical).map fun d =>
        RoseTree.node a [d, w.canonical, v.canonical]).getD
          (.node a [u.canonical, v.canonical, w.canonical]) := by
    intro u v w
    rw [Kquery.canonical_node, redex, doubleNot, isNot_select ha]
    show (swapArms (.node a [u.canonical, v.canonical, w.canonical])).getD _ = _
    rw [swapArms, if_pos ha]
    rfl
  rw [hnode, hnode, canonical_not hcond h]
  cases hz : isNot KqueryNode.label c.canonical with
  | none =>
    rw [Option.getD_none, isNot_withOperand hcond h hc.canonical]
    rfl
  | some z =>
    rw [Option.getD_some, ((canonical_irreducible c).isNot_operand hz).2]
    rfl

/-- A step keeps the constants well formed. -/
theorem Rewrites.constants {P : Kquery → Kquery → Prop} {t t' : Kquery} (h : Rewrites P t t')
    (ht : Constants t) : Constants t' := by
  induction h with
  | doubleNot h => exact constants_of_redex ht (by rw [redex, h]; rfl)
  | select ha h =>
    refine constants_of_redex ht ?_
    rw [redex, Assure.doubleNot, isNot_select ha, swapArms, if_pos ha, h]
    rfl
  | @operand a l r c c' h ih =>
    have hall : ∀ d ∈ l ++ c' :: r, Constants d := by
      intro d hd
      simp only [List.mem_append, List.mem_cons] at hd
      rcases hd with hd | rfl | hd
      · exact ht.operand (by simp [hd])
      · exact ih (ht.operand (by simp))
      · exact ht.operand (by simp [hd])
    cases ht with
    | node hlabel _ => exact .node (fun hfalse => absurd (hlabel hfalse).2 (by simp)) hall

/-- **Rewriting keeps the canonical form**, where negations are spelled alike. -/
theorem Rewrites.canonical_eq {t t' : Kquery} (h : Rewrites SpelledAlike t t') (ht : Constants t) :
    t.canonical = t'.canonical := by
  induction h with
  | doubleNot h halike => exact canonical_doubleNot ht h halike
  | select ha h => exact canonical_select (ht.operand List.mem_cons_self) ha h
  | operand h ih =>
    rw [Kquery.canonical_node, Kquery.canonical_node, List.map_append, List.map_append, List.map_cons,
      List.map_cons, ih (ht.operand (by simp))]

/-- All expressions that are reached from one have its canonical form, which is why no order of the
steps can lead anywhere else. -/
theorem canonical_eq_of_rewrites {t t' : Kquery}
    (h : Relation.ReflTransGen (Rewrites SpelledAlike) t t') (ht : Constants t) :
    t.canonical = t'.canonical ∧ Constants t' := by
  induction h with
  | refl => exact ⟨rfl, ht⟩
  | tail _ hstep ih => exact ⟨ih.1.trans (hstep.canonical_eq ih.2), hstep.constants ih.2⟩

end Assure
