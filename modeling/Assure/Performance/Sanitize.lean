import Assure.Library.Blanks
import Assure.Library.Cutting
import Assure.Pipeline.BlockEnd
import Mathlib.Data.List.DropRight

/-!
# Fixes of performance code

Code that a model has written for a performance run is put right before it is compiled, and after each compile that
fails: marks of the answer are cut out, `libc::stderr` gets an extern block, a definition of `print_file_md5` that needs
a library is replaced by a portable one, and includes are put in front that the compiler misses.
-/

namespace Assure

open Assure.Library

variable (chars : CharClass)

/-- **Letters where case is ignored.** -/
structure CaseClass where
  same : Char → Char → Bool
  same_ascii : ∀ c d : Char, c.toNat < 128 → d.toNat < 128 → same c d = (c.toLower == d.toLower)

/-- A literal text in any case. -/
def litAnyCase (caseClass : CaseClass) (text : String) : Pattern Unit :=
  text.toList.foldr (fun c rest => Pattern.one (caseClass.same c) >>= fun _ => rest) (pure ())

/-! ## Marks of the answer -/

/-- `(?mi)^\s*(?:the\s+)?final\s+(?:result\s+)?code\s*(?:is\s*)?:\s*$` -/
def markerPattern (caseClass : CaseClass) : Pattern Unit := do
  Pattern.lineStart
  let _ ← Pattern.many chars.space
  Pattern.optional do
    litAnyCase caseClass "the"
    let _ ← Pattern.many1 chars.space
    return ()
  litAnyCase caseClass "final"
  let _ ← Pattern.many1 chars.space
  Pattern.optional do
    litAnyCase caseClass "result"
    let _ ← Pattern.many1 chars.space
    return ()
  litAnyCase caseClass "code"
  let _ ← Pattern.many chars.space
  Pattern.optional do
    litAnyCase caseClass "is"
    let _ ← Pattern.many chars.space
    return ()
  Pattern.lit ":"
  let _ ← Pattern.many chars.space
  Pattern.lineEnd

/-- ``(?m)^\s*```\w*\s*$`` -/
def fencePattern : Pattern Unit := do
  Pattern.lineStart
  let _ ← Pattern.many chars.space
  Pattern.lit "```"
  let _ ← Pattern.many chars.word
  let _ ← Pattern.many chars.space
  Pattern.lineEnd

/-- **`stripModelCodeMarkers`** -/
def stripModelCodeMarkers (caseClass : CaseClass) (sourceCode : List Char) : List Char :=
  (fencePattern chars).cut ((markerPattern chars caseClass).cut sourceCode)

/-! ## stderr -/

/-- `libc::stderr` -/
def libcStderr : List Char := "libc::stderr".toList

/-- `(?m)^\s*static\s+mut\s+PERFORMANCE_STDERR\s*:` -/
def stderrStatic : Pattern Unit := do
  Pattern.lineStart
  let _ ← Pattern.many chars.space
  Pattern.lit "static"
  let _ ← Pattern.many1 chars.space
  Pattern.lit "mut"
  let _ ← Pattern.many1 chars.space
  Pattern.lit "PERFORMANCE_STDERR"
  let _ ← Pattern.many chars.space
  Pattern.lit ":"

/-- `(?m)^\s*use[^\n]*\n` -/
def useLine : Pattern Unit := do
  Pattern.lineStart
  let _ ← Pattern.many chars.space
  Pattern.lit "use"
  let _ ← Pattern.many (· ≠ '\n')
  Pattern.lit "\n"

/-- `stderrExternBlock` -/
def stderrExternBlock : List Char :=
  "extern \"C\" \x7b\n    #[link_name = \"stderr\"]\n    static mut PERFORMANCE_STDERR: *mut libc::FILE;\n\x7d\n".toList

/-- **`sanitizeRustLibcStderr`** -/
def sanitizeRustLibcStderr (sourceCode : List Char) : List Char :=
  if ¬ libcStderr <:+: sourceCode then sourceCode
  else
    let updatedCode := replaceText libcStderr "PERFORMANCE_STDERR".toList 0 sourceCode
    if (stderrStatic chars).found (String.ofList updatedCode) then updatedCode
    else
      let pieces := splitMatches (useLine chars).matchAt 0 none updatedCode
      let front := (pieces.rdropWhile Sum.isLeft).flatMap pieceSource
      let back := (pieces.rtakeWhile Sum.isLeft).flatMap pieceSource
      if front = [] then stderrExternBlock ++ '\n' :: updatedCode
      else front ++ '\n' :: (stderrExternBlock ++ back)

/-! ## Includes -/

/-- `(?m)^\s*#\s*include[^\n]*$` -/
def includeLine : Pattern (List Char) := do
  Pattern.lineStart
  let indent ← Pattern.many chars.space
  Pattern.lit "#"
  let blanks ← Pattern.many chars.space
  Pattern.lit "include"
  let rest ← Pattern.many (· ≠ '\n')
  Pattern.lineEnd
  return indent ++ '#' :: (blanks ++ "include".toList ++ rest)

/-- The lines that `addIncludesToSource` finds included. -/
def existingIncludes (sourceCode : List Char) : List (List Char) := (includeLine chars).findAll sourceCode

/-- **`addIncludesToSource`** -/
def addIncludesToSource (sourceCode : List Char) (includeLines : List (List Char)) : List Char :=
  let includeLines := (includeLines.map (stripBlanks chars)).filter (· ≠ [])
  let missingIncludes := includeLines.filter fun line => !(existingIncludes chars sourceCode).contains line
  if missingIncludes = [] then sourceCode
  else List.intercalate ['\n'] missingIncludes ++ '\n' :: sourceCode

/-- One of some words. -/
def anyWord (words : List String) : Pattern Unit := words.foldr (fun word rest => Pattern.orElse (.lit word) rest) fun _ => []

/-- `\b(?:…)\b` -/
def wholeAnyWord (words : Pattern Unit) : Pattern Unit := do
  Pattern.boundary chars
  words
  Pattern.boundary chars

/-- The fixed-width types of `<cstdint>`. -/
def stdintWord : Pattern Unit :=
  let width := anyWord ["8", "16", "32", "64"]
  let sized (front : Pattern Unit) (infixed : String) : Pattern Unit := do
    Pattern.optional front
    Pattern.lit infixed
    width
    Pattern.lit "_t"
  Pattern.orElse (sized (.lit "u") "int") <| Pattern.orElse (sized (anyWord ["u", "s"]) "int_least") <|
    Pattern.orElse (sized (anyWord ["u", "s"]) "int_fast") <| anyWord ["uintptr_t", "intptr_t", "uintmax_t", "intmax_t"]

/-- `_MISSING_INCLUDE_RULES` -/
def missingIncludeRules : List (Pattern Unit × String) :=
  [(stdintWord, "#include <cstdint>"),
    (anyWord ["size_t", "ptrdiff_t", "nullptr_t", "max_align_t", "offsetof"], "#include <cstddef>"),
    (anyWord ["FILE", "fopen", "fread", "fwrite", "fclose", "fprintf", "printf", "sprintf", "fputs", "fputc", "fgetc",
      "fgets", "fseek", "ftell", "rewind", "fflush", "stderr", "stdout", "stdin"], "#include <cstdio>"),
    (anyWord ["malloc", "calloc", "realloc", "free", "exit", "abort", "atoi", "atol", "atof", "strtol", "strtoul",
      "strtod", "rand", "srand", "RAND_MAX"], "#include <cstdlib>"),
    (anyWord ["strlen", "strcmp", "strncmp", "strcpy", "strncpy", "strcat", "strncat", "strchr", "strrchr", "strstr",
      "memcpy", "memmove", "memcmp", "memchr"], "#include <cstring>"),
    (anyWord ["assert"], "#include <cassert>"),
    (anyWord ["log", "log2", "log10", "exp", "sqrt", "pow", "fabs", "floor", "ceil", "round", "sin", "cos", "tan",
      "fmod", "isnan", "isinf"], "#include <cmath>")]

/-- `os.path.splitext(path)[1].lower()` -/
def lowerExtension (path : List Char) : List Char :=
  let name := (path.rtakeWhile (· ≠ '/')).dropWhile (· = '.')
  if '.' ∈ name then ('.' :: name.rtakeWhile (· ≠ '.')).map Char.toLower else []

/-- **`inferMissingPerformanceIncludes`** -/
def inferMissingPerformanceIncludes (performancePath : List Char) (compilerStderr : String) : List String :=
  if lowerExtension performancePath ≠ ".cpp".toList then []
  else
    let has (words : List String) : Bool := (wholeAnyWord chars (anyWord words)).found compilerStderr
    let legacy := (if has ["memset"] then ["#include <string.h>"] else []) ++
      (if has ["CLOCK_MONOTONIC"] || has ["clock_gettime"] then ["#include <time.h>"] else [])
    let required := missingIncludeRules.filterMap fun rule =>
      if (wholeAnyWord chars rule.1).found compilerStderr then some rule.2 else none
    (legacy ++ required).eraseDups

/-! ## The definition of print_file_md5 -/

/-- `[A-Za-z_][\w:<>~]*[\s*&]+` -/
def typeWord : Pattern Unit := do
  let _ ← Pattern.one fun c => c.isAlpha || c == '_'
  let _ ← Pattern.many fun c => chars.word c || [':', '<', '>', '~'].contains c
  let _ ← Pattern.many1 fun c => chars.space c || ['*', '&'].contains c
  return ()

/-- `[^\S\n]*(?:…)+name\s*\([^;{}]*\)\s*\{` -/
def definitionHead (functionName : String) : Pattern Unit := do
  let _ ← Pattern.many fun c => chars.space c && c != '\n'
  typeWord chars
  Pattern.star (typeWord chars)
  Pattern.lit functionName
  let _ ← Pattern.many chars.space
  Pattern.lit "("
  let _ ← Pattern.many fun c => !([';', '\x7b', '\x7d'].contains c)
  Pattern.lit ")"
  let _ ← Pattern.many chars.space
  Pattern.lit "\x7b"

/-- `signaturePattern` -/
def signaturePattern (functionName : String) : Pattern Unit := do
  Pattern.lineStart
  definitionHead chars functionName

/-- Where a text is found: one more character is in front of it. -/
def behind (c : Char) : Option (List Char × List Char) → Option (List Char × List Char) :=
  Option.map fun found => (c :: found.1, found.2)

/-- The loop of `findCppFunctionDefinitionByName` over the signatures: the text in front of the definition, and the
definition. -/
def definitionAt (functionName : String) : Nat → Option Char → List Char → Option (List Char × List Char)
  | _, _, [] => none
  | skip + 1, _, c :: text => behind c (definitionAt functionName skip (some c) text)
  | 0, before, c :: text =>
    match (signaturePattern chars functionName).matchAt before (c :: text) with
    | none => behind c (definitionAt functionName 0 (some c) text)
    | some (_, rest) =>
      match scanCode true braceAct none false 0 ('\x7b' :: rest) with
      | some (_, n) => some ([], (c :: text).take (text.length - rest.length + n))
      | none => behind c (definitionAt functionName (text.length - rest.length) (some c) text)

/-- **`findCppFunctionDefinitionByName`** -/
def findCppFunctionDefinitionByName (sourceCode : List Char) (functionName : String) : List Char :=
  if functionName = "" then []
  else ((definitionAt chars functionName 0 none sourceCode).map fun found => stripBlanks chars found.2).getD []

/-- **`getPortablePrintFileMd5Helper`** -/
def portablePrintFileMd5Helper : List Char :=
  ("static void print_file_md5(const char *filepath)\n" ++ "\x7b\n" ++ "    char command[512];\n" ++
    "    snprintf(command, sizeof(command), \"md5sum %s\", filepath);\n" ++ "    system(command);\n" ++ "\x7d").toList

/-- `md5Markers` -/
def md5Markers : List String :=
  ["CommonCrypto/CommonDigest.h", "openssl/md5.h", "CC_MD5", "MD5_Init", "MD5_CTX", "MD5_DIGEST_LENGTH"]

/-- `(?m)^\s*#\s*include\s*<…>\s*\n?` -/
def md5Include (header : String) : Pattern Unit := do
  Pattern.lineStart
  let _ ← Pattern.many chars.space
  Pattern.lit "#"
  let _ ← Pattern.many chars.space
  Pattern.lit "include"
  let _ ← Pattern.many chars.space
  Pattern.lit header
  let _ ← Pattern.many chars.space
  Pattern.optional (.lit "\n")

/-- The includes of the libraries are cut out. -/
def cutMd5Includes (sourceCode : List Char) : List Char :=
  (md5Include chars "<openssl/md5.h>").cut ((md5Include chars "<CommonCrypto/CommonDigest.h>").cut sourceCode)

/-- **`sanitizePerformanceGeneratedCode`** -/
def sanitizePerformanceGeneratedCode (caseClass : CaseClass) (sourceCode : List Char) : List Char :=
  let updatedCode := sanitizeRustLibcStderr chars (stripModelCodeMarkers chars caseClass sourceCode)
  let printMd5Definition := findCppFunctionDefinitionByName chars updatedCode "print_file_md5"
  if printMd5Definition = [] then updatedCode
  else if ¬ ∃ marker ∈ md5Markers, marker.toList <:+: updatedCode then updatedCode
  else
    addIncludesToSource chars
      (replaceFirst printMd5Definition portablePrintFileMd5Helper (cutMd5Includes chars updatedCode))
      ["#include <cstdio>".toList, "#include <cstdlib>".toList]

/-! ## The fix after a failed compile -/

/-- The code that `autoFixPerformanceCompileError` compares with the old one. -/
def autoFixedCode (caseClass : CaseClass) (performancePath : List Char) (stderr : String) (originalCode : List Char) :
    List Char :=
  addIncludesToSource chars (sanitizePerformanceGeneratedCode chars caseClass originalCode)
    ((inferMissingPerformanceIncludes chars performancePath stderr).map String.toList)

/-- **`autoFixPerformanceCompileError`**: what is written, if it reports a change. -/
def autoFixPerformanceCompileError (caseClass : CaseClass) (performancePath : List Char) (stderr : String)
    (originalCode : List Char) : Option (List Char) :=
  let updatedCode := autoFixedCode chars caseClass performancePath stderr originalCode
  if updatedCode = originalCode then none else some updatedCode

end Assure
