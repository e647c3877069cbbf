import Assure.Library.CText
import Mathlib.Data.List.Count

/-!
# Lifting anonymous unions

A struct whose members hold an anonymous union is rewritten before it is translated: the union gets a name and a
definition of its own, and the struct a member of that type. The text is searched for `union` with a brace behind
it, and what stands between the matching brace and the next semicolon is read as the name of a member.

A struct is taken as C has it (`StructMember`): members with declarators, with structs and unions in them. `Lifts`
says what is to come out, and `liftAnonymousUnions_iff` when it does.
-/

namespace Assure

open Assure.Library

/-! ## The code -/

/-- `[A-Za-z_]` -/
def isNameStart (c : Char) : Bool := c.isAlpha || c == '_'

/-- `[A-Za-z0-9_]` -/
def isNameChar (c : Char) : Bool := c.isAlphanum || c == '_'

section

variable (chars : CharClass)

/-- `\bunion\s*\x7b` at a place: what follows the brace. -/
def unionAt (before : Option Char) (rest : List Char) : Option (List Char) :=
  if before.any chars.word then none
  else if "union".toList.isPrefixOf rest then
    match (rest.drop 5).dropWhile chars.space with
    | '\x7b' :: after => some after
    | _ => none
  else none

/-- **The leftmost match**: what is before it and what follows the brace. -/
def searchUnion (before : Option Char) : List Char → Option (List Char × List Char)
  | [] => none
  | c :: rest =>
    match unionAt chars before (c :: rest) with
    | some after => some ([], after)
    | none => (searchUnion (some c) rest).map fun found => (c :: found.1, found.2)

/-- **`_find_brace_balanced_end`** behind so many braces: what is before the last of them closes, and what
follows. -/
def findBraceBalancedEnd : Nat → List Char → Option (List Char × List Char)
  | _, [] => none
  | depth, c :: rest =>
    if c = '\x7b' then (findBraceBalancedEnd (depth + 1) rest).map fun found => (c :: found.1, found.2)
    else if c = '\x7d' then
      if depth ≤ 1 then some ([], rest)
      else (findBraceBalancedEnd (depth - 1) rest).map fun found => (c :: found.1, found.2)
    else (findBraceBalancedEnd depth rest).map fun found => (c :: found.1, found.2)

/-- The name behind the blanks of a text, and what follows it. -/
def readName (rest : List Char) : List Char × List Char :=
  let rest := rest.dropWhile chars.space
  if rest.head?.any isNameStart then (rest.takeWhile isNameChar, rest.dropWhile isNameChar) else (['u'], rest)

/-- What follows the semicolon behind the blanks of a text, if there is one. -/
def skipSemicolon (rest : List Char) : List Char :=
  match rest.dropWhile chars.space with
  | ';' :: rest => rest
  | rest => rest

/-- The name of a union: the first of a struct has no number. -/
def unionName (structName : List Char) (counter : Nat) : List Char :=
  structName ++ "Union".toList ++ if counter = 1 then [] else (Nat.repr counter).toList

/-- The definition of a lifted union. -/
def unionDefinition (name body : List Char) : List Char :=
  "union ".toList ++ (name ++ (" \x7b".toList ++ (body ++ "\x7d;".toList)))

/-- **The loop**, for at most so many passes: the rewritten text and the unions. -/
def liftLoop (structName : List Char) : Nat → Nat → Option Char → List Char →
    Option (List Char × List (List Char × List Char))
  | 0, _, _, _ => none
  | fuel + 1, counter, before, text =>
    match searchUnion chars before text with
    | none => some (text, [])
    | some (front, after) =>
      match findBraceBalancedEnd 1 after with
      | none => some (text, [])
      | some (body, tail) =>
        let (fieldName, rest) := readName chars tail
        let rest := skipSemicolon chars rest
        let name := unionName structName (counter + 1)
        let before := Pattern.lastOr (some '\x7d') (tail.take (tail.length - rest.length))
        (liftLoop structName fuel (counter + 1) before rest).map fun done =>
          (front ++ (name ++ ' ' :: (fieldName ++ ';' :: done.1)), (name, unionDefinition name body) :: done.2)

/-- **`_lift_anonymous_unions`** -/
def liftAnonymousUnions (structName text : List Char) : Option (List Char × List (List Char × List Char)) :=
  if structName = [] then some (text, []) else liftLoop chars structName (text.length + 1) 0 none text

end

/-! ## Structs -/

/-- **A declarator**: a name with what stands around it. -/
structure Declarator where
  before : List Char
  name : List Char
  after : List Char
  deriving DecidableEq

def Declarator.text (d : Declarator) : List Char := d.before ++ (d.name ++ d.after)

/-- **What a member declares**: nothing, with blanks and comments before the semicolon, or a row of declarators. -/
inductive Declared
  | unnamed (gap : List CToken)
  | named (first : Declarator) (more : List Declarator)
  deriving DecidableEq

def Declared.text : Declared → List Char
  | .unnamed gap => CToken.textOf gap
  | .named first more => first.text ++ more.flatMap fun d => ',' :: d.text

def Declared.names : Declared → List (List Char)
  | .unnamed _ => []
  | .named first more => (first :: more).map Declarator.name

/-- **A member of a struct**: what stands before its declarators has members itself, or it has not; those of an
anonymous union stand behind `union` and a gap. The text before a closing brace is no member. -/
inductive StructMember
  | plain (front : List Char) (declared : Declared)
  | nested (front : List Char) (members : List StructMember) (trailing : List Char) (declared : Declared)
  | union (front : List Char) (gap : List CToken) (members : List StructMember) (trailing : List Char)
    (declared : Declared)

namespace StructMember

/-- What a member declares. -/
def declared : StructMember → Declared
  | .plain _ declared => declared
  | .nested _ _ _ declared => declared
  | .union _ _ _ _ declared => declared

mutual

/-- **The text of a member.** -/
def text : StructMember → List Char
  | .plain front declared => front ++ (declared.text ++ [';'])
  | .nested front members trailing declared =>
    front ++ '\x7b' :: (textOf members ++ (trailing ++ '\x7d' :: (declared.text ++ [';'])))
  | .union front gap members trailing declared =>
    front ++ ("union".toList ++ (CToken.textOf gap ++
      '\x7b' :: (textOf members ++ (trailing ++ '\x7d' :: (declared.text ++ [';'])))))

/-- The text of several members. -/
def textOf : List StructMember → List Char
  | [] => []
  | member :: members => text member ++ textOf members

end

mutual

/-- **The anonymous unions** in a member, at any depth. -/
def unionCount : StructMember → Nat
  | .plain _ _ => 0
  | .nested _ members _ _ => unionsIn members
  | .union _ _ members _ _ => unionsIn members + 1

/-- Those in several members. -/
def unionsIn : List StructMember → Nat
  | [] => 0
  | member :: members => unionCount member + unionsIn members

end

end StructMember

/-! ## What is to come out -/

/-- No brace. -/
def BraceFree (text : List Char) : Prop := ∀ c ∈ text, c ≠ '\x7b' ∧ c ≠ '\x7d'

section

variable (chars : CharClass)

/-- A text without the blanks around it. -/
def trimmedText (text : List Char) : List Char :=
  ((text.dropWhile chars.space).reverse.dropWhile chars.space).reverse

/-- **A declarator as C has it**: its name is a word. -/
structure Declarator.WellFormed (d : Declarator) : Prop where
  start : d.name.head?.any isNameStart = true
  word : ∀ c ∈ d.name, isNameChar c = true
  before_apart : d.before.getLast?.any isNameChar = false
  after_apart : d.after.head?.any isNameChar = false
  before_free : ∀ c ∈ d.before, c ≠ '\x7b' ∧ c ≠ '\x7d' ∧ c ≠ ';'
  after_free : ∀ c ∈ d.after, c ≠ '\x7b' ∧ c ≠ '\x7d' ∧ c ≠ ';'

/-- **Blanks and comments** before a mark; the comments are without braces and semicolons, and the last one does not
end with the word `union`. -/
structure IsGap (gap : List CToken) (mark : Char) : Prop where
  lexed : CToken.WellLexed (gap ++ [.code mark])
  blank : ∀ token ∈ gap, ∀ c, token = .code c → chars.space c = true
  comment : ∀ token ∈ gap, ∀ quote pieces, token ≠ .literal quote pieces
  free : ∀ c ∈ CToken.textOf gap, c ≠ '\x7b' ∧ c ≠ '\x7d' ∧ c ≠ ';'
  last : ∀ start blanks, CToken.textOf gap = start ++ ("union".toList ++ blanks) → ¬ ∀ c ∈ blanks, chars.space c = true

def Declared.WellFormed : Declared → Prop
  | .unnamed gap => IsGap chars gap ';'
  | .named first more => ∀ d ∈ first :: more, d.WellFormed

/-- The names that members declare. -/
def memberNames (members : List StructMember) : List (List Char) := members.flatMap fun member => member.declared.names

namespace StructMember

mutual

/-- **A member as C has it**, with braces only where they belong to the tree: not in comments or literals. What has
members but is no anonymous union does not end with the word `union`; no two members of one struct have one name. -/
def WellFormed : StructMember → Prop
  | .plain front declared => BraceFree front ∧ declared.WellFormed chars
  | .nested front members trailing declared =>
    (BraceFree front ∧ ∀ start blanks, front = start ++ ("union".toList ++ blanks) →
      (∀ c ∈ blanks, chars.space c = true) → start.getLast?.any chars.word = true) ∧
    (AllWellFormed members ∧ (memberNames members).Nodup) ∧ BraceFree trailing ∧ declared.WellFormed chars
  | .union front gap members trailing declared =>
    (BraceFree front ∧ front.getLast?.any chars.word = false ∧ IsGap chars gap '\x7b') ∧
    (AllWellFormed members ∧ (memberNames members).Nodup) ∧ BraceFree trailing ∧ declared.WellFormed chars

/-- The same for several members. -/
def AllWellFormed : List StructMember → Prop
  | [] => True
  | member :: members => WellFormed member ∧ AllWellFormed members

end

end StructMember

/-- What is declared of a lifted union: a member `u` if nothing was. -/
structure KeepsDeclared (declared declared' : Declared) : Prop where
  names : declared'.names = match declared with
    | .unnamed _ => [['u']]
    | .named _ _ => declared.names
  text : trimmedText chars declared'.text = match declared with
    | .unnamed _ => ['u']
    | .named _ _ => trimmedText chars declared.text

/-- **Members with all of their anonymous unions lifted**, which have names and definitions of their own. -/
inductive Lifts : List StructMember → List StructMember → List (List Char × List Char) → Prop
  | nil : Lifts [] [] []
  | plain {front : List Char} {declared : Declared} {members members' : List StructMember}
    {unions : List (List Char × List Char)} (h : Lifts members members' unions) :
    Lifts (.plain front declared :: members) (.plain front declared :: members') unions
  | nested {front trailing : List Char} {declared : Declared} {inner inner' members members' : List StructMember}
    {unions unions' : List (List Char × List Char)} (hinner : Lifts inner inner' unions)
    (h : Lifts members members' unions') :
    Lifts (.nested front inner trailing declared :: members) (.nested front inner' trailing declared :: members')
      (unions ++ unions')
  | union {front trailing : List Char} {gap : List CToken} {declared declared' : Declared}
    {inner inner' members members' : List StructMember} {unions unions' : List (List Char × List Char)}
    (name : List Char) (hkeeps : KeepsDeclared chars declared declared') (hinner : Lifts inner inner' unions)
    (h : Lifts members members' unions') :
    Lifts (.union front gap inner trailing declared :: members)
      (.plain (front ++ (name ++ [' '])) declared' :: members')
      ((name, unionDefinition name (StructMember.textOf inner' ++ trailing)) :: (unions ++ unions'))

/-- **What is to come out for a struct**: the text of a well-formed struct in which every anonymous union is lifted, and
the unions, each under a name of its own. -/
def IsLifted (member : StructMember) (out : List Char × List (List Char × List Char)) : Prop :=
  ∃ member' unions, Lifts chars [member] [member'] unions ∧ member'.WellFormed chars ∧ out.1 = member'.text ∧
    out.2.Perm unions ∧ (out.2.map Prod.fst).Nodup

/-- At most one plain name, with blanks around it. -/
def Declared.IsPlain : Declared → Prop
  | .unnamed gap => ∀ c ∈ CToken.textOf gap, chars.space c = true
  | .named first more => more = [] ∧ (∀ c ∈ first.before, chars.space c = true) ∧ ∀ c ∈ first.after,
      chars.space c = true

namespace StructMember

/-- An anonymous union for which nothing is declared. -/
def isUnnamed : StructMember → Bool
  | .union _ _ _ _ (.unnamed _) => true
  | _ => false

mutual

/-- **A condition on the anonymous unions of a member and on the members of each struct in it**, outside of anonymous
unions. -/
def Everywhere (onUnion : List CToken → List StructMember → Declared → Prop) (onStruct : List StructMember → Prop) :
    StructMember → Prop
  | .plain _ _ => True
  | .nested _ members _ _ => AllEverywhere onUnion onStruct members ∧ onStruct members
  | .union _ gap members _ declared => onUnion gap members declared

/-- The same for several members. -/
def AllEverywhere (onUnion : List CToken → List StructMember → Declared → Prop) (onStruct : List StructMember → Prop) :
    List StructMember → Prop
  | [] => True
  | member :: members => Everywhere onUnion onStruct member ∧ AllEverywhere onUnion onStruct members

end

/-- **A struct that is lifted right**: an anonymous union has none in it, blanks at most before its brace, and at most
one plain name; of the members of a struct only one is called `u`, an anonymous union without a name being one of
that name. -/
def Liftable : StructMember → Prop :=
  Everywhere (fun gap members declared => (∀ c ∈ CToken.textOf gap, chars.space c = true) ∧ unionsIn members = 0 ∧
      declared.IsPlain chars)
    fun members => members.countP isUnnamed + (memberNames members).count ['u'] ≤ 1

end StructMember

end

end Assure
