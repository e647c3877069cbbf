import Mathlib.Tactic.Common

/-!
# The grammar of KQuery

`Kquery.g4` as the trees its parser returns. Tokens are their texts, and names and numbers such texts as
the lexer takes for them. A name in the place of an expression is an `identifier` and a name with a
colon a `definition`, since these alternatives come before `version`; a version proper keeps its own
names and definitions.

`text` is what `getText` gives: the tokens of a tree without the blanks between them.
-/

namespace Assure

/-! ## Tokens -/

/-- `NUMBER` -/
def isNumberText (text : String) : Bool :=
  text == "true" || text == "false" ||
    let digits := match text.toList with
      | '+' :: digits => digits
      | '-' :: digits => digits
      | digits => digits
    (digits ≠ [] && digits.all fun c => c.isDigit || c == '_') ||
      match digits with
      | '0' :: 'b' :: c :: cs => (c :: cs).all fun c => c == '0' || c == '1' || c == '_'
      | '0' :: 'o' :: c :: cs => (c :: cs).all fun c => '0' ≤ c && c ≤ '7' || c == '_'
      | '0' :: 'x' :: c :: cs =>
        (c :: cs).all fun c => c.isDigit || 'a' ≤ c && c ≤ 'f' || 'A' ≤ c && c ≤ 'F' || c == '_'
      | _ => false

/-- `IDENTIFIER`, which comes after `NUMBER`. -/
def isIdentifierText (text : String) : Bool :=
  !isNumberText text &&
    match text.toList with
    | c :: cs => (c.isAlpha || c == '_') && cs.all fun c => c.isAlphanum || c == '.' || c == '_'
    | [] => false

/-- **A number.** -/
structure NumberToken where
  text : String
  valid : isNumberText text = true

/-- The number 0. -/
def NumberToken.zero : NumberToken := ⟨"0", by decide +kernel⟩

/-- A bit. -/
def NumberToken.bit (b : Bool) : NumberToken :=
  ⟨if b then "true" else "false", by cases b <;> decide +kernel⟩

/-- **A name.** -/
structure Identifier where
  text : String
  valid : isIdentifierText text = true

/-- `arithmetic_expr_kind` -/
inductive ArithmeticKind
  | add
  | sub
  | mul
  | uDiv
  | uRem
  | sDiv
  | sRem

/-- `bitwise_expr_kind` -/
inductive BitwiseKind
  | and
  | or
  | xor
  | shl
  | lShr
  | aShr

/-- `comparison_expr_kind` -/
inductive ComparisonKind
  | eq
  | ne
  | ult
  | ule
  | ugt
  | uge
  | slt
  | sle
  | sgt
  | sge

/-- `bv_expr_kind` -/
inductive BvKind
  | concat
  | extract

/-- `extension_expr_kind` -/
inductive ExtensionKind
  | zExt
  | sExt

/-- `array_read_expr_kind` -/
inductive ArrayReadKind
  | readLSB
  | readMSB

def ArithmeticKind.text : ArithmeticKind → String
  | .add => "Add"
  | .sub => "Sub"
  | .mul => "Mul"
  | .uDiv => "UDiv"
  | .uRem => "URem"
  | .sDiv => "SDiv"
  | .sRem => "SRem"

def BitwiseKind.text : BitwiseKind → String
  | .and => "And"
  | .or => "Or"
  | .xor => "Xor"
  | .shl => "Shl"
  | .lShr => "LShr"
  | .aShr => "AShr"

def ComparisonKind.text : ComparisonKind → String
  | .eq => "Eq"
  | .ne => "Ne"
  | .ult => "Ult"
  | .ule => "Ule"
  | .ugt => "Ugt"
  | .uge => "Uge"
  | .slt => "Slt"
  | .sle => "Sle"
  | .sgt => "Sgt"
  | .sge => "Sge"

def BvKind.text : BvKind → String
  | .concat => "Concat"
  | .extract => "Extract"

def ExtensionKind.text : ExtensionKind → String
  | .zExt => "ZExt"
  | .sExt => "SExt"

def ArrayReadKind.text : ArrayReadKind → String
  | .readLSB => "ReadLSB"
  | .readMSB => "ReadMSB"

/-! ## Trees -/

/-- `number_list` -/
inductive NumberList
  | single (number : NumberToken)
  | cons (number : NumberToken) (rest : NumberList)

/-- `array_initializer` -/
inductive ArrayInitializer
  | symbolic
  | numbers (list : NumberList)

mutual

/-- **`expr`** -/
inductive KqueryExpr
  | identifier (name : Identifier)
  | number (number : NumberToken)
  | definition (name : Identifier) (e : KqueryExpr)
  | numberWithType (type : String) (number : NumberToken)
  | arrayDeclaration (name : Identifier) (size : Option NumberToken) (domain range : String)
    (init : ArrayInitializer)
  | arithmetic (kind : ArithmeticKind) (type : String) (e1 e2 : KqueryExpr)
  | bitwise (kind : BitwiseKind) (type : Option String) (e1 e2 : KqueryExpr)
  | comparison (kind : ComparisonKind) (type : Option String) (e1 e2 : KqueryExpr)
  | bv (kind : BvKind) (type : Option String) (e1 e2 : KqueryExpr)
  | extension (kind : ExtensionKind) (type : String) (e : KqueryExpr)
  | read (type : String) (e : KqueryExpr) (version : KqueryVersion)
  | select (type : String) (e1 e2 e3 : KqueryExpr)
  | neg (type : Option String) (e : KqueryExpr)
  | arrayRead (kind : ArrayReadKind) (type : String) (e : KqueryExpr) (version : KqueryVersion)
  | version (updates : KqueryUpdates) (target : KqueryVersion)

/-- **`version`**: an array with updates, or a name. -/
inductive KqueryVersion
  | updated (updates : KqueryUpdates) (target : KqueryVersion)
  | name (name : Identifier)
  | definition (name : Identifier) (e : KqueryExpr)

/-- **`(update_list)?`**: offsets and values, the latest first. -/
inductive KqueryUpdates
  | nil
  | cons (offset value : KqueryExpr) (rest : KqueryUpdates)

end

/-! ## Texts -/

def NumberList.text : NumberList → String
  | .single number => number.text
  | .cons number rest => number.text ++ "," ++ rest.text

def ArrayInitializer.text : ArrayInitializer → String
  | .symbolic => "symbolic"
  | .numbers list => "[" ++ list.text ++ "]"

mutual

/-- `getText` of an expression. -/
def KqueryExpr.text : KqueryExpr → String
  | .identifier name => name.text
  | .number number => number.text
  | .definition name e => name.text ++ ":" ++ e.text
  | .numberWithType type number => "(" ++ type ++ number.text ++ ")"
  | .arrayDeclaration name size domain range init =>
    "array" ++ name.text ++ "[" ++ (size.map NumberToken.text).getD "" ++ "]:" ++ domain ++ "->" ++ range ++ "=" ++
      init.text
  | .arithmetic kind type e1 e2 => "(" ++ kind.text ++ type ++ e1.text ++ e2.text ++ ")"
  | .bitwise kind type e1 e2 => "(" ++ kind.text ++ type.getD "" ++ e1.text ++ e2.text ++ ")"
  | .comparison kind type e1 e2 => "(" ++ kind.text ++ type.getD "" ++ e1.text ++ e2.text ++ ")"
  | .bv kind type e1 e2 => "(" ++ kind.text ++ type.getD "" ++ e1.text ++ e2.text ++ ")"
  | .extension kind type e => "(" ++ kind.text ++ type ++ e.text ++ ")"
  | .read type e version => "(Read" ++ type ++ e.text ++ version.text ++ ")"
  | .select type e1 e2 e3 => "(Select" ++ type ++ e1.text ++ e2.text ++ e3.text ++ ")"
  | .neg type e => "(Neg" ++ type.getD "" ++ e.text ++ ")"
  | .arrayRead kind type e version => "(" ++ kind.text ++ type ++ e.text ++ version.text ++ ")"
  | .version updates target => "[" ++ updates.text ++ "]@" ++ target.text

/-- `getText` of a version. -/
def KqueryVersion.text : KqueryVersion → String
  | .updated updates target => "[" ++ updates.text ++ "]@" ++ target.text
  | .name name => name.text
  | .definition name e => name.text ++ ":" ++ e.text

/-- `getText` of an update list. -/
def KqueryUpdates.text : KqueryUpdates → String
  | .nil => ""
  | .cons offset value .nil => offset.text ++ "=" ++ value.text
  | .cons offset value rest => offset.text ++ "=" ++ value.text ++ "," ++ rest.text

end

end Assure
