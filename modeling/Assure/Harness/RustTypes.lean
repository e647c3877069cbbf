import Assure.Library.Regex

/-!
# Types in `struct_map.json`

For the field of a Rust struct `struct_map.json` has the text of its type. Patterns take out of it what
LLVM types do not say: that the field is a function pointer, the struct behind a `Box` or a reference,
and the element of a `Vec`.
-/

namespace Assure

open Assure.Library Assure.Library.Pattern

/-- Text without some characters at its ends. -/
def trimmed (blank : Char → Bool) (text : String) : String :=
  String.ofList ((text.toList.dropWhile blank).reverse.dropWhile blank).reverse

/-- `trim_ws` -/
def trimWs : String → String := trimmed fun c => c == ' ' || c == '\t'

/-- `trim` -/
def trim : String → String := trimmed fun c => c == ' ' || c == '\t' || c == '\n' || c == '\r'

/-- `\s`, as `isspace` has it. -/
def isSpace (c : Char) : Bool := c.toNat == 32 || 9 ≤ c.toNat && c.toNat ≤ 13

/-- `\w` -/
def isWord : Char → Bool := CharClass.ascii.word

/-- `.` -/
def isNoBreak (c : Char) : Bool := c != '\n' && c != '\r'

/-- `\s*` -/
def spaces : Pattern Unit := do
  let _ ← many isSpace

/-- `\s+` -/
def spaces1 : Pattern Unit := do
  let _ ← many1 isSpace

/-- `'\w+` -/
def lifetime : Pattern Unit := do
  lit "'"
  let _ ← many1 isWord

/-- `&\s*(?:'\w+\s+)?(?:mut\s+)?` -/
def reference : Pattern Unit := do
  lit "&"
  spaces
  optional do
    lifetime
    spaces1
  optional do
    lit "mut"
    spaces1

/-- `…\s*<\s*(.+)>\s*` after a name. -/
def argumentOf : Pattern (List Char) := do
  spaces
  lit "<"
  spaces
  let argument ← many1 isNoBreak
  lit ">"
  spaces
  return argument

/-- `\s*<\s*'\w+(?:\s*,\s*'\w+)*\s*>` -/
def lifetimes : Pattern Unit := do
  spaces
  lit "<"
  spaces
  lifetime
  star do
    spaces
    lit ","
    spaces
    lifetime
  spaces
  lit ">"

/-- `opt_re` -/
def optPattern : Pattern (List Char) := do
  lit "Option"
  argumentOf

/-- `box_re` -/
def boxPattern : Pattern (List Char) := do
  orElse (lit "Box") (lit "NonNull")
  argumentOf

/-- `ref_re` -/
def refPattern : Pattern (List Char) := do
  reference
  many1 isNoBreak

/-- `vec_re` -/
def vecPattern : Pattern (List Char) := do
  optional reference
  lit "Vec"
  argumentOf

/-- `lifetimes_re` -/
def lifetimesPattern : Pattern (List Char) := do
  let name ← lazily (many1 isNoBreak)
  lifetimes
  return name

/-- The trimmed group of a match. -/
def group? (p : Pattern (List Char)) (text : String) : Option String :=
  (p.fullmatch? text).map fun group => trimWs (String.ofList group)

/-- `std::regex_replace(s, lifetimes_only_re, "")`: what stands before lifetimes that end the text. -/
def withoutLifetimes (text : String) : String :=
  let isEnd (place : List Char) : Bool := (do lifetimes; spaces : Pattern Unit).fullmatch (String.ofList place)
  match (text.toList.inits.zip text.toList.tails).find? fun place => isEnd place.2 with
  | some (before, _) => String.ofList before
  | none => text

/-- No name of a struct: empty, or with one of these in it. -/
def noName (text : String) (marks : List String) : Bool :=
  text.isEmpty || marks.any fun mark => contains text mark

/-- **The name in `boxed_struct_of`**: what `Option<Box<T>>`, `Box<T>`, `Option<&T>` and `&T` point to. -/
def boxedName (text : String) : Option String :=
  let text := trimWs text
  let text := (group? optPattern text).getD text
  ((group? boxPattern text).or (group? refPattern text)).bind fun text =>
    let text := withoutLifetimes text
    if noName text ["<", "["] then none else some text

/-- **The name in `vec_elem_struct_of`**: the element of a `Vec`. -/
def vecElemName (text : String) : Option String :=
  (group? vecPattern (trimWs text)).bind fun text =>
    let text := (group? lifetimesPattern text).getD text
    if noName text ["<", "[", "&", "*"] then none else some text

/-- `s.substr(s.rfind("::") + 2)` -/
def lastSegment (text : String) : Option String :=
  (text.toList.tails.reverse.find? fun rest => "::".toList.isPrefixOf rest).map fun rest =>
    String.ofList (rest.drop 2)

/-- `wrapper_re` -/
def wrapperPattern : Pattern (List Char) := do
  spaces
  orElse (lit "Option") (lit "Box")
  spaces
  lit "<"
  spaces
  -- the blanks before the bracket may be a line break, which the argument has not
  let argument ← many1 isNoBreak
  spaces
  lit ">"
  spaces
  return argument

/-- `\s*\([^)]*\)\s*(?:->\s*.*)?\s*`, the rest of a function type. -/
def signature : Pattern Unit := do
  spaces
  lit "("
  let _ ← many (· != ')')
  lit ")"
  spaces
  optional do
    lit "->"
    spaces
    let _ ← many isNoBreak
  spaces

/-- `dyn_fn_re` -/
def dynFnPattern : Pattern Unit := do
  spaces
  optional do
    optional (lit "&")
    lifetime
    spaces1
  lit "dyn"
  spaces1
  lit "Fn"
  signature

/-- `fn_ptr_re` -/
def fnPtrPattern : Pattern Unit := do
  spaces
  optional do
    lit "unsafe"
    spaces1
  optional do
    lit "extern"
    spaces
    lit "\""
    let _ ← many (· != '"')
    lit "\""
    spaces1
  lit "fn"
  signature

/-- A type without the wrappers around it, each shorter than the one before. -/
def unwrapped : Nat → String → String
  | 0, text => text
  | n + 1, text =>
    match wrapperPattern.fullmatch? text with
    | some group => unwrapped n (trim (String.ofList group))
    | none => text

/-- **`check_function_ptr`** -/
def isFunctionPtr (text : String) : Bool :=
  let text := unwrapped text.length text
  dynFnPattern.fullmatch text || fnPtrPattern.fullmatch text

example : boxedName "Option<Box<Node>>" = some "Node" := by decide +kernel

example : vecElemName "Vec<crate::Link<'a>>" = some "crate::Link" := by decide +kernel

example : isFunctionPtr "Option<unsafe extern \"C\" fn(u32) -> i32>" = true := by decide +kernel

example : isFunctionPtr "Option<\nunsafe extern \"C\" fn(u32) -> i32,\n>" = true := by decide +kernel

end Assure
