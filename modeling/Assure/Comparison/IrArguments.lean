import Assure.Library.Blanks
import Assure.Library.Regex

/-!
# Signatures of the intermediate code

`llvm_function_signature` writes a function as `define <ret> @<name>(<parameters>)`, with the parameters
joined by commas, and `_count_ir_args` counts them again in the text. Parameters hold commas of their own,
inside brackets; so the counter goes through the text with the depth in brackets of any kind.

The counter gives the number of parameters back, for every list of them
(`countIrArgs_signatureText`), and the signature of a function is such a text where its types are
parameters (`llvmFunctionSignature_parts`). What a type may look like is asked of brackets and
commas only.
-/

namespace Assure

open Assure.Library

/-! ## Writing a signature -/

/-- A function of a module, as far as its signature goes: its type's text, its name, and the types and names
of its parameters. -/
structure IrFunction where
  type : String
  name : String
  arguments : List (String × String)

/-- The text of a signature. -/
def signatureText (ret name : String) (parts : List String) : String :=
  "define " ++ ret ++ " @" ++ name ++ "(" ++ ", ".intercalate parts ++ ")"

/-- **`llvm_function_signature`** of the function it has picked. -/
def llvmFunctionSignature (chars : CharClass) (func : IrFunction) : String :=
  let ret := strip chars (String.ofList (func.type.toList.takeWhile (· ≠ '(')))
  let parts := func.arguments.map fun a => if a.2 ≠ "" then a.1 ++ " %" ++ a.2 else a.1
  signatureText ret func.name parts

/-! ## Counting the parameters -/

/-- `x.strip()` is not empty. -/
def isNonBlank (chars : CharClass) (text : List Char) : Bool := text.any fun c => !chars.space c

/-- The loop over the characters after the first parenthesis: the parts that a comma has ended, and what
follows the last of them. -/
def splitArgs (depth : Nat) (buf : List Char) (parts : List (List Char)) : List Char → List Char × List (List Char)
  | [] => (buf, parts)
  | ch :: inner =>
    if ch ∈ ['(', '[', '\x7b', '<'] then splitArgs (depth + 1) (buf ++ [ch]) parts inner
    else if ch ∈ [')', ']', '\x7d', '>'] then
      if depth = 0 then (buf, parts) else splitArgs (depth - 1) (buf ++ [ch]) parts inner
    else if ch = ',' ∧ depth = 0 then splitArgs depth [] (parts ++ [buf]) inner
    else splitArgs depth (buf ++ [ch]) parts inner

/-- **`_count_ir_args`** -/
def countIrArgs (chars : CharClass) (irSig : String) : Int :=
  if irSig = "" ∨ '(' ∉ irSig.toList then -1
  else
    let inner := (irSig.toList.dropWhile (· ≠ '(')).tail
    let (buf, parts) := splitArgs 0 [] [] inner
    let parts := if isNonBlank chars buf then parts ++ [buf] else parts
    (parts.filter (isNonBlank chars)).length

/-! ## Parameters -/

/-- The depth in brackets after a text, where no bracket closes that was not opened and no comma stands
outside of brackets. -/
def bracketDepth? (depth : Nat) : List Char → Option Nat
  | [] => some depth
  | ch :: text =>
    if ch ∈ ['(', '[', '\x7b', '<'] then bracketDepth? (depth + 1) text
    else if ch ∈ [')', ']', '\x7d', '>'] then
      if depth = 0 then none else bracketDepth? (depth - 1) text
    else if ch = ',' ∧ depth = 0 then none
    else bracketDepth? depth text

/-- The characters that the depth and the parts depend on. -/
def bracketsAndCommas : List Char := ['(', '[', '\x7b', '<', ')', ']', '\x7d', '>', ',']

/-- **A parameter**: its brackets are balanced and its commas inside them. -/
def IsParameter (text : String) : Prop := bracketDepth? 0 text.toList = some 0

instance (text : String) : Decidable (IsParameter text) := inferInstanceAs (Decidable (_ = _))

/-- A text without outer commas goes to the buffer as it is. -/
theorem splitArgs_append {text : List Char} {depth depth' : Nat} (h : bracketDepth? depth text = some depth')
    (buf : List Char) (parts : List (List Char)) (rest : List Char) :
    splitArgs depth buf parts (text ++ rest) = splitArgs depth' (buf ++ text) parts rest := by
  induction text generalizing depth buf with
  | nil =>
    cases h
    rw [List.nil_append, List.append_nil]
  | cons ch text ih =>
    rw [bracketDepth?] at h
    rw [List.cons_append, splitArgs, List.append_cons buf ch text]
    split at h
    · rename_i hopen
      rw [if_pos hopen]
      exact ih h _
    · rename_i hopen
      rw [if_neg hopen]
      split at h
      · rename_i hclose
        rw [if_pos hclose]
        split at h
        · cases h
        · rename_i hdepth
          rw [if_neg hdepth]
          exact ih h _
      · rename_i hclose
        rw [if_neg hclose]
        split at h
        · cases h
        · rename_i hcomma
          rw [if_neg hcomma]
          exact ih h _

/-- At depth zero a comma ends the part that is being read. -/
theorem splitArgs_comma (buf : List Char) (parts : List (List Char)) (rest : List Char) :
    splitArgs 0 buf parts (',' :: rest) = splitArgs 0 [] (parts ++ [buf]) rest := by
  rw [splitArgs, if_neg (by decide), if_neg (by decide), if_pos ⟨rfl, rfl⟩]

/-- At depth zero the closing parenthesis ends the list, with the last part still in the buffer. -/
theorem splitArgs_close (buf : List Char) (parts : List (List Char)) (rest : List Char) :
    splitArgs 0 buf parts (')' :: rest) = (buf, parts) := by
  rw [splitArgs, if_neg (by decide), if_pos (by decide), if_pos rfl]

section Count

variable {chars : CharClass}

/-- The count of what the loop leaves. -/
def countParts (chars : CharClass) (left : List Char × List (List Char)) : Nat :=
  ((if isNonBlank chars left.1 then left.2 ++ [left.1] else left.2).filter (isNonBlank chars)).length

/-- Where the buffer holds something other than blanks when the scan ends, it is counted as one more
part. -/
theorem countParts_nonBlank {buf : List Char} (h : isNonBlank chars buf = true) (parts : List (List Char)) :
    countParts chars (buf, parts) = (parts.filter (isNonBlank chars)).length + 1 := by
  simp [countParts, h, List.filter_append]

/-- A text with something other than blanks in it keeps it, whatever stands in front. -/
theorem isNonBlank_append_right {text : List Char} (h : isNonBlank chars text = true) (front : List Char) :
    isNonBlank chars (front ++ text) = true := by
  rw [isNonBlank, List.any_append]
  exact Bool.or_eq_true_iff.mpr (.inr h)

/-- The characters of the parameters and the closing parenthesis. -/
def joinedArgs (part : String) (parts : List String) : List Char :=
  part.toList ++ parts.flatMap (fun part => ',' :: ' ' :: part.toList)

/-- The characters of the joined parameters, which is the form the scan is followed on. -/
theorem intercalate_toList (part : String) (parts : List String) :
    (", ".intercalate (part :: parts)).toList = joinedArgs part parts := by
  induction parts generalizing part with
  | nil => simp [joinedArgs]
  | cons next parts ih =>
    rw [String.intercalate_cons_cons, String.toList_append, String.toList_append, ih]
    simp [joinedArgs]

/-- **The loop finds the parameters**, whatever has been read of the first one. -/
theorem countParts_splitArgs (parts : List String) :
    ∀ (part : String) (buf : List Char) (done : List (List Char)),
      (∀ p ∈ part :: parts, IsParameter p ∧ isNonBlank chars p.toList = true) →
      countParts chars (splitArgs 0 buf done (joinedArgs part parts ++ [')'])) =
        (done.filter (isNonBlank chars)).length + (part :: parts).length := by
  induction parts with
  | nil =>
    intro part buf done h
    obtain ⟨hpart, hblank⟩ := h part List.mem_cons_self
    rw [joinedArgs, List.flatMap_nil, List.append_nil, splitArgs_append hpart, splitArgs_close,
      countParts_nonBlank (isNonBlank_append_right hblank buf)]
    rfl
  | cons next parts ih =>
    intro part buf done h
    obtain ⟨hpart, hblank⟩ := h part List.mem_cons_self
    have hsplit : joinedArgs part (next :: parts) ++ [')'] =
        part.toList ++ ',' :: ([' '] ++ (joinedArgs next parts ++ [')'])) := by
      simp [joinedArgs]
    have hspace : bracketDepth? 0 [' '] = some 0 := by decide
    have hkept : [buf ++ part.toList].filter (isNonBlank chars) = [buf ++ part.toList] :=
      List.filter_cons_of_pos (isNonBlank_append_right hblank buf)
    rw [hsplit, splitArgs_append hpart, splitArgs_comma, splitArgs_append hspace,
      ih next _ _ fun p hp => h p (List.mem_cons_of_mem part hp), List.filter_append, hkept]
    simp only [List.length_append, List.length_cons, List.length_nil]
    omega

/-- The text after the first parenthesis of a signature. -/
theorem signatureText_inner {ret name : String} (hret : '(' ∉ ret.toList) (hname : '(' ∉ name.toList)
    (parts : List String) :
    ((signatureText ret name parts).toList.dropWhile (· ≠ '(')).tail =
      (", ".intercalate parts).toList ++ [')'] := by
  have hfront : ∀ c ∈ "define ".toList ++ ret.toList ++ " @".toList ++ name.toList, decide (c ≠ '(') = true := by
    intro c hc
    refine decide_eq_true ?_
    rintro rfl
    simp only [List.mem_append] at hc
    rcases hc with ((hc | hc) | hc) | hc
    · exact absurd hc (by decide)
    · exact hret hc
    · exact absurd hc (by decide)
    · exact hname hc
  have htext : (signatureText ret name parts).toList =
      ("define ".toList ++ ret.toList ++ " @".toList ++ name.toList) ++
        '(' :: ((", ".intercalate parts).toList ++ [')']) := by
    simp [signatureText]
  rw [htext, List.dropWhile_append_of_pos hfront]
  rfl

/-- A text of other characters keeps the depth. -/
theorem bracketDepth?_append_plain {front back : List Char} {depth depth' : Nat}
    (hfront : bracketDepth? depth front = some depth') (hback : ∀ c ∈ back, c ∉ bracketsAndCommas) :
    bracketDepth? depth (front ++ back) = some depth' := by
  induction front generalizing depth with
  | nil =>
    obtain rfl := Option.some.inj hfront
    rw [List.nil_append]
    induction back with
    | nil => rfl
    | cons c back ih =>
      obtain ⟨hc, hback⟩ := List.forall_mem_cons.mp hback
      simp only [bracketsAndCommas, List.mem_cons, List.not_mem_nil, or_false, not_or] at hc
      rw [bracketDepth?, if_neg (by simp [hc]), if_neg (by simp [hc]), if_neg (by simp [hc]), ih hback]
  | cons c front ih =>
    rw [List.cons_append, bracketDepth?]
    rw [bracketDepth?] at hfront
    split at hfront
    · rename_i hopen
      rw [if_pos hopen, ih hfront]
    · rename_i hopen
      rw [if_neg hopen]
      split at hfront
      · rename_i hclose
        rw [if_pos hclose]
        split at hfront
        · cases hfront
        · rename_i hdepth
          rw [if_neg hdepth, ih hfront]
      · rename_i hclose
        rw [if_neg hclose]
        split at hfront
        · cases hfront
        · rename_i hcomma
          rw [if_neg hcomma, ih hfront]

/-- **The signature of a function is a text that is counted**: before the name there is no parenthesis, and each type with
its name is a parameter, if the type is one and the name has no brackets and commas. -/
theorem llvmFunctionSignature_parts (chars : CharClass) {func : IrFunction}
    (h : ∀ a ∈ func.arguments, IsParameter a.1 ∧ isNonBlank chars a.1.toList = true ∧
      ∀ c ∈ a.2.toList, c ∉ bracketsAndCommas) :
    ∃ (ret : String) (parts : List String), '(' ∉ ret.toList ∧
      (∀ p ∈ parts, IsParameter p ∧ isNonBlank chars p.toList = true) ∧ parts.length = func.arguments.length ∧
        llvmFunctionSignature chars func = signatureText ret func.name parts := by
  refine ⟨strip chars (String.ofList (func.type.toList.takeWhile (· ≠ '('))),
    func.arguments.map fun a => if a.2 ≠ "" then a.1 ++ " %" ++ a.2 else a.1, ?_, ?_, List.length_map _, ?_⟩
  · rw [strip, String.toList_ofList, String.toList_ofList]
    intro hmem
    have htaken := List.mem_takeWhile_imp (mem_stripBlanks hmem)
    rw [decide_eq_true_eq] at htaken
    exact htaken rfl
  · intro p hp
    obtain ⟨a, ha, rfl⟩ := List.mem_map.mp hp
    obtain ⟨htype, hblank, hname⟩ := h a ha
    split
    · have htext : (a.1 ++ " %" ++ a.2).toList = a.1.toList ++ (" %".toList ++ a.2.toList) := by
        rw [String.toList_append, String.toList_append, List.append_assoc]
      rw [IsParameter, htext, isNonBlank, List.any_append]
      refine ⟨bracketDepth?_append_plain htype ?_, Bool.or_eq_true_iff.mpr (.inl hblank)⟩
      rw [List.forall_mem_append]
      refine ⟨fun c hc => ?_, hname⟩
      have hmark : c = ' ' ∨ c = '%' := by simpa using hc
      rcases hmark with rfl | rfl <;> simp [bracketsAndCommas]
    · exact ⟨htype, hblank⟩
  · rw [llvmFunctionSignature]

/-- **Counting undoes writing**: the parameters that are counted in a signature are as many as were joined, for every
list of them, the empty one included, where brackets within a parameter match and commas stand only in brackets. -/
theorem countIrArgs_signatureText (chars : CharClass) {ret name : String} (hret : '(' ∉ ret.toList)
    (hname : '(' ∉ name.toList) {parts : List String}
    (hparts : ∀ p ∈ parts, IsParameter p ∧ isNonBlank chars p.toList = true) :
    countIrArgs chars (signatureText ret name parts) = parts.length := by
  have hopen : '(' ∈ (signatureText ret name parts).toList := by simp [signatureText]
  have hne : signatureText ret name parts ≠ "" := by
    intro h
    rw [h] at hopen
    cases hopen
  rw [countIrArgs, if_neg (by simp [hne, hopen]), signatureText_inner hret hname]
  cases parts with
  | nil => rfl
  | cons part parts =>
    rw [intercalate_toList]
    exact congrArg Nat.cast ((countParts_splitArgs parts part [] [] hparts).trans (Nat.zero_add _))

/-- A function pointer and an array in a structure. -/
theorem countIrArgs_signatureText_two :
    countIrArgs .ascii (signatureText "i32" "csv_write" ["i8* %dest", "\x7b i64, [2 x i8] \x7d (i32, i8*)* %cb"]) = 2 :=
  countIrArgs_signatureText .ascii (by decide) (by decide) (by decide +kernel)

end Count

end Assure
