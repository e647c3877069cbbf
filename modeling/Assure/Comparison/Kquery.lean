import Assure.Library.RoseTree
import Mathlib.Tactic.Common

/-!
# KQuery expressions

What KLEE prints of a symbolic value is a KQuery expression, and the grapher makes a tree of it: a
node has an operator, a number or a name as its label and, where the expression has one, a type
(`w32`). `Kquery.eval` gives the value of a tree in an environment that says what the arrays hold.

Numbers have no width of their own and take the one of the operation they stand in, which is more than
a bit: a single bit is printed `true` or `false`. An operation on operands of the wrong kind or width is
`invalid`, and so is any operation on an `invalid` operand (`interpret_strict`).
-/

namespace Assure

open Assure.Library

/-- The attributes of a node. -/
structure KqueryNode where
  label : String
  type : Option String
deriving DecidableEq

/-- **A KQuery expression**, the operands in order. -/
abbrev Kquery := RoseTree KqueryNode

/-- **A value**: a number without a width, a bit-vector, an array of bytes, or a part of an update
list. -/
inductive Value
  | number (n : Int)
  | bits (width : Nat) (b : BitVec width)
  | array (read : Nat → BitVec 8)
  | write (offset : Nat) (b : BitVec 8)
  | writes (ws : List (Nat × BitVec 8))
  | invalid

namespace Value

/-- The value as a bit-vector of a width. -/
def toBits (width : Nat) : Value → Option (BitVec width)
  | number n => if width = 1 then none else some (BitVec.ofInt width n)
  | bits w b => if w = width then some (b.setWidth width) else none
  | _ => none

/-- The value as an offset. -/
def toOffset : Value → Option Nat
  | number n => some n.toNat
  | bits _ b => some b.toNat
  | _ => none

/-- The width of the first operand that has one. -/
def operandWidth (operands : List Value) : Nat :=
  (operands.findSome? fun
    | bits w _ => some w
    | _ => none).getD 0

end Value

/-! ## Operators -/

/-- The digits of a text without other characters. -/
def decimal? (digits : List Char) : Option Nat :=
  if digits ≠ [] ∧ digits.all Char.isDigit then some (Nat.ofDigitChars 10 digits 0) else none

/-- The number a label stands for. -/
def number? (label : String) : Option Int :=
  match label.toList with
  | '-' :: digits => (decimal? digits).map fun n => -n
  | digits => (decimal? digits).map fun n => n

/-- The width a type stands for. -/
def KqueryNode.width? (node : KqueryNode) : Option Nat :=
  node.type.bind fun type =>
    match type.toList with
    | 'w' :: digits => decimal? digits
    | _ => none

/-- The operators of two bit-vectors and their width. -/
def arithmetic? : String → Option ((w : Nat) → BitVec w → BitVec w → BitVec w)
  | "Add" => some fun _ a b => a + b
  | "Sub" => some fun _ a b => a - b
  | "Mul" => some fun _ a b => a * b
  | "UDiv" => some fun _ a b => a / b
  | "URem" => some fun _ a b => a % b
  | "SDiv" => some fun _ a b => a.sdiv b
  | "SRem" => some fun _ a b => a.srem b
  | "And" => some fun _ a b => a &&& b
  | "Or" => some fun _ a b => a ||| b
  | "Xor" => some fun _ a b => a ^^^ b
  | "Shl" => some fun _ a b => a <<< b
  | "LShr" => some fun _ a b => a >>> b
  | "AShr" => some fun _ a b => a.sshiftRight' b
  | _ => none

/-- The comparisons of two bit-vectors. -/
def comparison? : String → Option ((w : Nat) → BitVec w → BitVec w → Bool)
  | "Eq" => some fun _ a b => a == b
  | "Ne" => some fun _ a b => a != b
  | "Ult" => some fun _ a b => a.ult b
  | "Ule" => some fun _ a b => a.ule b
  | "Ugt" => some fun _ a b => b.ult a
  | "Uge" => some fun _ a b => b.ule a
  | "Slt" => some fun _ a b => a.slt b
  | "Sle" => some fun _ a b => a.sle b
  | "Sgt" => some fun _ a b => b.slt a
  | "Sge" => some fun _ a b => b.sle a
  | _ => none

/-- Apply an operator at a width. -/
def binary {β : Type} (width : Nat) (op : BitVec width → BitVec width → β) (result : β → Value)
    (a b : Value) : Value :=
  match a.toBits width, b.toBits width with
  | some x, some y => result (op x y)
  | _, _ => .invalid

/-- The number in some bytes of an array, the least significant first. -/
def readLsb (read : Nat → BitVec 8) (offset : Nat) : Nat → Nat
  | 0 => 0
  | bytes + 1 => (read offset).toNat + 256 * readLsb read (offset + 1) bytes

/-- The number in some bytes of an array, the most significant first. -/
def readMsb (read : Nat → BitVec 8) (offset : Nat) (bytes : Nat) : Nat :=
  readLsb (fun i => read (offset + (bytes - 1 - i))) 0 bytes

/-- The reads of some bytes at an offset. -/
def read? : String → Option ((Nat → BitVec 8) → Nat → Nat → Nat)
  | "Read" => some readLsb
  | "ReadLSB" => some readLsb
  | "ReadMSB" => some readMsb
  | _ => none

/-- An array after writes, the latest first. -/
def written (ws : List (Nat × BitVec 8)) (read : Nat → BitVec 8) (i : Nat) : BitVec 8 :=
  ((ws.find? fun w => w.1 = i).map Prod.snd).getD (read i)

/-- A bit, a number or a name. The target of an update list is printed `"target : name"`. -/
def leaf (env : String → Nat → BitVec 8) (label : String) : Value :=
  if label = "true" then .bits 1 1#1
  else if label = "false" then .bits 1 0#1
  else match number? label with
  | some n => .number n
  | none =>
    if "\"target : ".toList <+: label.toList then
      .array (env (String.ofList ((label.toList.drop 10).dropLast)))
    else .array (env label)

/-- Select between two values of one width. -/
def select (width : Nat) (condition a b : Value) : Value :=
  match condition.toBits 1, a.toBits width, b.toBits width with
  | some c, some x, some y => .bits width (if c = 1#1 then x else y)
  | _, _, _ => .invalid

/-- Cut some bits out of a value. -/
def extract (width : Nat) : Value → Value → Value
  | .number offset, .bits _ b => .bits width (b.extractLsb' offset.toNat width)
  | _, _ => .invalid

/-- Read from an array at an offset. -/
def readAt (width : Nat) (read : (Nat → BitVec 8) → Nat → Nat → Nat) (offset array : Value) :
    Value :=
  match offset.toOffset, array with
  | some i, .array bytes => .bits width (BitVec.ofNat width (read bytes i (width / 8)))
  | _, _ => .invalid

/-- Put two bit-vectors together, the high one first. -/
def concat : Value → Value → Value
  | .bits w a, .bits v b => .bits (w + v) (a ++ b)
  | _, _ => .invalid

/-- One write of an update list. -/
def updateAt (offset value : Value) : Value :=
  match offset.toOffset, value.toBits 8 with
  | some i, some b => .write i b
  | _, _ => .invalid

/-- The writes of an update list. -/
def updates (operands : List Value) : Value :=
  match operands.mapM fun
    | .write i b => some (i, b)
    | _ => none with
  | some ws => .writes ws
  | none => .invalid

/-- **What an operator computes** from the values of its operands. -/
def interpret (env : String → Nat → BitVec 8) (node : KqueryNode) (operands : List Value) : Value :=
  let width := node.width?.getD (Value.operandWidth operands)
  match operands with
  | [] => leaf env node.label
  | [a] =>
    match node.label, a with
    | "ZExt", .bits _ b => .bits width (b.setWidth width)
    | "SExt", .bits _ b => .bits width (b.signExtend width)
    | "Neg", .bits w b => .bits w (-b)
    | "update_list", a => updates [a]
    | _, _ => .invalid
  | [a, b] =>
    match arithmetic? node.label with
    | some op => binary width (op width) (.bits width) a b
    | none =>
      match comparison? node.label with
      | some op => binary (Value.operandWidth operands) (op _) (fun r => .bits 1 (.ofBool r)) a b
      | none =>
        match read? node.label with
        | some read => readAt width read a b
        | none =>
          match node.label, a, b with
          | "Extract", a, b => extract width a b
          | "Concat", a, b => concat a b
          | "update_list_sub_node", a, b => updateAt a b
          | "version", .writes ws, .array bytes => .array (written ws bytes)
          | "update_list", a, b => updates [a, b]
          | _, _, _ => .invalid
  | [condition, a, b] =>
    match node.label with
    | "Select" => select width condition a b
    | "update_list" => updates [condition, a, b]
    | _ => .invalid
  | operands => if node.label = "update_list" then updates operands else .invalid

/-- **The value of an expression.** -/
def Kquery.eval (env : String → Nat → BitVec 8) (t : Kquery) : Value := t.fold (interpret env)

/-- The value of an expression is its operator applied to the values of its operands. -/
theorem Kquery.eval_node (env : String → Nat → BitVec 8) (node : KqueryNode) (operands : List Kquery) :
    Kquery.eval env (.node node operands) = interpret env node (operands.map (Kquery.eval env)) :=
  RoseTree.fold_node _ _ _

/-! ## What operators compute -/

/-- An operand of another width makes the operation invalid. -/
theorem binary_invalid {β : Type} {width : Nat} {op : BitVec width → BitVec width → β}
    {result : β → Value} {a b : Value} (h : a.toBits width = none ∨ b.toBits width = none) :
    binary width op result a b = .invalid := by
  unfold binary
  rcases h with h | h
  · rw [h]
  · rw [h]
    cases a.toBits width <;> rfl

/-- A list of updates has no value where an entry has none. -/
theorem updates_strict {operands : List Value} (h : Value.invalid ∈ operands) :
    updates operands = .invalid := by
  have hnone : operands.mapM (fun
      | .write i b => some (i, b)
      | _ => none) = none := by
    induction operands with
    | nil => cases h
    | cons v vs ih =>
      rw [List.mapM_cons]
      rcases List.mem_cons.mp h with rfl | h
      · rfl
      · rw [ih h]
        cases v <;> rfl
  unfold updates
  rw [hnone]

/-- No operator of two operands has a value where one of them has none. -/
theorem interpret_strict_pair (env : String → Nat → BitVec 8) (node : KqueryNode) {a b : Value}
    (h : a = .invalid ∨ b = .invalid) : interpret env node [a, b] = .invalid := by
  have hbits : ∀ w, a.toBits w = none ∨ b.toBits w = none :=
    fun w => h.imp (fun h => by rw [h]; rfl) fun h => by rw [h]; rfl
  have hmem : Value.invalid ∈ [a, b] := by
    rw [List.mem_pair]
    exact h.imp Eq.symm Eq.symm
  unfold interpret
  dsimp only
  split
  · exact binary_invalid (hbits _)
  · split
    · exact binary_invalid (hbits _)
    · split
      · unfold readAt
        split
        · rename_i hoffset
          rcases h with rfl | h
          · cases hoffset
          · cases h
        · rfl
      · split
        · unfold extract
          split
          · rcases h with h | h <;> cases h
          · rfl
        · unfold concat
          split
          · rcases h with h | h <;> cases h
          · rfl
        · unfold updateAt
          split
          · rename_i hoffset hvalue
            rcases h with rfl | rfl
            · cases hoffset
            · cases hvalue
          · rfl
        · rcases h with h | h <;> cases h
        · exact updates_strict hmem
        · rfl

/-- **Nothing comes out of an invalid operand.** -/
theorem interpret_strict (env : String → Nat → BitVec 8) (node : KqueryNode) {operands : List Value}
    (h : Value.invalid ∈ operands) : interpret env node operands = .invalid := by
  match operands, h with
  | [a], h =>
    obtain rfl := List.mem_singleton.mp h
    unfold interpret
    dsimp only
    split <;> first | rfl | contradiction
  | [a, b], h =>
    rw [List.mem_pair] at h
    exact interpret_strict_pair env node (h.imp Eq.symm Eq.symm)
  | [condition, a, b], h =>
    unfold interpret
    dsimp only
    split
    · unfold select
      split
      · rename_i hc ha hb
        simp only [List.mem_cons, List.not_mem_nil, or_false] at h
        rcases h with rfl | rfl | rfl
        · cases hc
        · cases ha
        · cases hb
      · rfl
    · exact updates_strict h
    · rfl
  | _ :: _ :: _ :: _ :: _, h =>
    unfold interpret
    dsimp only
    split
    · exact updates_strict h
    · rfl

/-- Two operands give a width in either order, unless no width suits both. -/
theorem operandWidth_pair (a b : Value) :
    Value.operandWidth [a, b] = Value.operandWidth [b, a] ∨
      ∀ w, a.toBits w = none ∨ b.toBits w = none := by
  cases a with
  | bits v x =>
    cases b with
    | bits w y =>
      by_cases hvw : v = w
      · subst hvw
        exact .inl rfl
      · refine .inr fun u => ?_
        by_cases hvu : v = u
        · subst hvu
          exact .inr (if_neg (Ne.symm hvw))
        · exact .inl (if_neg hvu)
    | _ => exact .inl rfl
  | _ => cases b <;> exact .inl rfl

/-- A commutative operator, with a type or the operands' width. -/
theorem binary_comm {β : Nat → Type} (op : (w : Nat) → BitVec w → BitVec w → β w)
    (result : (w : Nat) → β w → Value) (hop : ∀ w x y, op w x y = op w y x) (type : Option Nat)
    (a b : Value) :
    binary (type.getD (Value.operandWidth [a, b])) (op _) (result _) a b =
      binary (type.getD (Value.operandWidth [b, a])) (op _) (result _) b a := by
  have hswap : ∀ w, binary w (op w) (result w) a b = binary w (op w) (result w) b a := by
    intro w
    unfold binary
    cases a.toBits w with
    | none => cases b.toBits w <;> rfl
    | some x =>
      cases b.toBits w with
      | none => rfl
      | some y =>
        show result w (op w x y) = result w (op w y x)
        rw [hop]
  rcases operandWidth_pair a b with hwidth | hnone
  · rw [hwidth]
    exact hswap _
  · rw [binary_invalid (hnone _), binary_invalid (hnone _).symm]

/-- **The commutative operators** of KQuery. -/
theorem interpret_comm (env : String → Nat → BitVec 8) {node : KqueryNode}
    (h : node.label ∈ ["Add", "Mul", "And", "Or", "Xor", "Eq", "Ne"]) (a b : Value) :
    interpret env node [a, b] = interpret env node [b, a] := by
  obtain ⟨label, type⟩ := node
  simp only [List.mem_cons, List.not_mem_nil, or_false] at h
  rcases h with rfl | rfl | rfl | rfl | rfl | rfl | rfl
  · exact binary_comm (fun w => (· + ·)) (fun w => .bits w) (fun _ => BitVec.add_comm) _ a b
  · exact binary_comm (fun w => (· * ·)) (fun w => .bits w) (fun _ => BitVec.mul_comm) _ a b
  · exact binary_comm (fun w => (· &&& ·)) (fun w => .bits w) (fun _ => BitVec.and_comm) _ a b
  · exact binary_comm (fun w => (· ||| ·)) (fun w => .bits w) (fun _ => BitVec.or_comm) _ a b
  · exact binary_comm (fun w => (· ^^^ ·)) (fun w => .bits w) (fun _ => BitVec.xor_comm) _ a b
  · exact binary_comm (fun w => (· == ·)) (fun w r => .bits 1 (.ofBool r))
      (fun _ _ _ => BEq.comm) none a b
  · exact binary_comm (fun w => (· != ·)) (fun w r => .bits 1 (.ofBool r))
      (fun _ _ _ => bne_comm) none a b

end Assure
