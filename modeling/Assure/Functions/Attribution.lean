import Assure.Functions.FetchTarget
import Assure.Functions.DependFunctions
import Assure.Library.Blanks
import Assure.Library.Collections
import Mathlib.Data.List.Forall2

/-!
# Translations and the functions they are of

From the text of a translation the pipeline takes the signature of each function that was wanted, and from a file that
was fixed by hand the functions themselves. It looks for the function whose name is closest to the wanted one, and the
check that follows compares two such searches with one another, not with what was wanted. So a function that is not in
the text is given another one's signature, unless the text has no function at all (`attribution_iff`).

The equivalences are for every text, tree and group, in Rust and in C++, and for both branches of
the pipeline. The syntax tree is a parameter, so nothing is said about texts that the parser
misreads. A signature is kept with the node that it was read from, since two functions can have one
signature text (`recordSignature_of_attributable`).
-/

namespace Assure

open Assure.Library

/-! ## Signatures -/

/-- `" ".join(text.split())` -/
def joinWords (charClass : CharClass) (text : List Char) : List Char :=
  List.intercalate [' '] ((text.splitOnP charClass.space).filter (· ≠ []))

/-- **`extract_signature`** -/
def extractSignature (charClass : CharClass) (src : List Char) (funcNode : SyntaxNode) (name : String) : String :=
  match funcNode.childByFieldName "parameters" with
  | none => name ++ "()"
  | some params =>
    let paramText := stripBlanks charClass (decodeSlice src params.startByte params.endByte)
    let prefixText := match funcNode.childByFieldName "name" with
      | some nameNode => decodeSlice src funcNode.startByte nameNode.startByte
      | none => []
    let unsafePrefix := if places charClass "unsafe".toList [] prefixText = [] then "" else "unsafe fn "
    let returnClause := match funcNode.childByFieldName "body" with
      | some body =>
        let between := stripBlanks charClass (decodeSlice src params.endByte body.startByte)
        if params.endByte ≤ body.startByte ∧ ['-', '>'] <+: between then ' ' :: between else []
      | none => []
    String.ofList (joinWords charClass (unsafePrefix.toList ++ name.toList ++ paramText ++ returnClause))

/-- The loop down to the declarator of the function. -/
def functionDeclarator (decl : SyntaxNode) : Option SyntaxNode :=
  if decl.type = "function_declarator" then some decl
  else (decl.childByFieldName "declarator").attach.bind fun next => functionDeclarator next.1
termination_by sizeOf decl
decreasing_by exact SyntaxNode.sizeOf_childByFieldName next.2

/-- The texts of the fields that a node has. -/
def fieldTexts (charClass : CharClass) (src : List Char) (node : SyntaxNode) (fields : List String) :
    List (List Char) :=
  fields.filterMap fun field =>
    (node.childByFieldName field).map fun n => stripBlanks charClass (decodeSlice src n.startByte n.endByte)

/-- **`extract_cpp_signature`** -/
def extractCppSignature (charClass : CharClass) (src : List Char) (funcNode : SyntaxNode) (name : String) : String :=
  let funcDecl := (funcNode.childByFieldName "declarator").bind functionDeclarator
  let retType := match funcDecl with
    | some decl =>
      let words := joinWords charClass (decodeSlice src funcNode.startByte decl.startByte)
      if words = ['c', 'p', 'p'] then []
      else if ['c', 'p', 'p', ' '] <+: words then stripBlanks charClass (words.drop 4)
      else words
    | none => []
  let paramText := match funcDecl.bind fun decl => decl.childByFieldName "parameters" with
    | some params => stripBlanks charClass (decodeSlice src params.startByte params.endByte)
    | none => ['(', ')']
  let suffixParts := fieldTexts charClass src funcNode ["ref_qualifier", "noexcept", "trailing_return_type"] ++
    (funcDecl.map fun decl =>
      fieldTexts charClass src decl ["type_qualifier", "ref_qualifier", "noexcept", "trailing_return_type"]).getD []
  let suffix := if suffixParts = [] then [] else ' ' :: List.intercalate [' '] suffixParts
  let nameAndParams := name.toList ++ paramText ++ suffix
  String.ofList (joinWords charClass (if retType = [] then nameAndParams else retType ++ ' ' :: nameAndParams))

/-! ## The functions of a translation -/

/-- The language translated to. -/
inductive DstLang
  | rust
  | cpp

/-- **The parser of a language**; the root of a tree is no function. -/
structure TargetParser where
  lang : DstLang
  parse : List Char → SyntaxNode
  isRoot : ∀ src, (parse src).type ≠ "function_item"

mutual

/-- **`find_func`** -/
def findFunc (src : List Char) (name : String) : SyntaxNode → Option SyntaxNode
  | .node _ _ _ _ children => findFuncIn src name children

/-- The loop of `find_func` over the children. -/
def findFuncIn (src : List Char) (name : String) : List SyntaxNode → Option SyntaxNode
  | [] => none
  | child :: children =>
    if child.type ∈ ["function_definition", "function_item"] ∧
        (child.childByFieldName "name").map (SyntaxNode.text src) = some name then some child
    else
      match findFunc src name child with
      | some res => some res
      | none => findFuncIn src name children

end

namespace TargetParser

variable (parser : TargetParser) (src : List Char)

/-- What a search reads at a node. -/
def reading : SyntaxNode → FunctionReading :=
  match parser.lang with
  | .rust => rustReading src
  | .cpp => cppReading src

/-- `find_target_rust_function_node` and `find_target_cpp_function` -/
def findTarget (wanted : String) : String × Option SyntaxNode :=
  match parser.lang with
  | .rust => findTargetRustFunctionNode src (parser.parse src) wanted
  | .cpp => findTargetCppFunction src (parser.parse src) wanted

/-- The function whose signature `fetch_rust_function_signature_with_byte` and `fetch_cpp_function_signature_with_byte`
return, with the name they give it. -/
def fetchFunction (wanted : String) : Option (String × SyntaxNode) :=
  match parser.lang with
  | .rust =>
    let target := findTargetRustFunction src (parser.parse src) wanted
    (findFunc src target (parser.parse src)).map fun node => (target, node)
  | .cpp =>
    let (target, node) := findTargetCppFunction src (parser.parse src) wanted
    node.map fun node => (target, node)

/-- The signature of a function. -/
def signatureOf (charClass : CharClass) (function : String × SyntaxNode) : String :=
  match parser.lang with
  | .rust => extractSignature charClass src function.2 function.1
  | .cpp => extractCppSignature charClass src function.2 function.1

/-- **The function that a wanted one is taken for**: a search for the wanted name, then a search for the name found,
and the check that the names agree. -/
def attributed (wanted : String) : Option (String × SyntaxNode) :=
  let realName := (parser.findTarget src wanted).1
  if realName = "" then none
  else (parser.fetchFunction src realName).filter fun function => function.1 = realName

/-- **`_extractSccFunctionSignatures`**: the functions whose signatures are recorded, and the names that are missing. -/
def extractSccFunctionSignatures (sccGroup : List String) :
    List (String × Option (String × SyntaxNode)) × List String :=
  (sccGroup.map fun funcName => (funcName, parser.attributed src funcName),
    sccGroup.filter fun funcName => (parser.attributed src funcName).isNone)

/-- **`targetLangSignature`** of a single function after its translation: what it was, if none is found. -/
def recordSignature (charClass : CharClass) (old wanted : String) : String :=
  ((parser.attributed src wanted).map (parser.signatureOf src charClass)).getD old

/-! ## Fixes by hand -/

/-- A function found for a name, with the name it has. -/
def foundFunction (funcName : String) : Option (String × SyntaxNode) :=
  let (name, node) := parser.findTarget src funcName
  node.map fun node => (name, node)

/-- What is taken from a fixed file: the functions found for the wanted names, if none is missing. -/
def acceptFix (wanted : List String) : Option (List (String × SyntaxNode)) :=
  let missing := wanted.filter fun funcName => (parser.foundFunction src funcName).isNone
  if missing = [] then some (wanted.filterMap (parser.foundFunction src)) else none

/-- The block that is made of the functions of a fixed file, in the order in which they stand there. -/
def fixedBlock (functions : List (String × SyntaxNode)) : String :=
  "\n".intercalate ((sortedBy (fun function => function.2.startByte) functions).map fun function => function.2.text src)

/-- What the user does when asked for a fix: no more input, to skip, or to save a file, which may not be readable. -/
inductive FixAttempt
  | eof
  | skip
  | saved (editedSource : Option (List Char))

/-- **`_offerManualSccFix`**, and for a single function `_offerManualFunctionFix`: whether a file was accepted, and the
block taken from it. Nothing is returned while the user is still to be asked. -/
def offerManualFix (compile : List Char → Bool) (wanted : List String) : List FixAttempt → Option (Bool × Option String)
  | [] => none
  | .eof :: _ => some (false, none)
  | .skip :: _ => some (false, none)
  | .saved none :: attempts => offerManualFix compile wanted attempts
  | .saved (some editedSource) :: attempts =>
    if compile editedSource then
      match parser.acceptFix editedSource wanted with
      | some functions => some (true, some (fixedBlock editedSource functions))
      | none => offerManualFix compile wanted attempts
    else offerManualFix compile wanted attempts

end TargetParser

/-! ## Names that come first -/

/-- **A name that counts as the wanted one**: itself, or its raw identifier. -/
def Named (wanted name : String) : Prop := name = wanted ∨ name = "r#" ++ wanted

/-- **A name at `k` edits from the wanted one that comes first**: all names before it are farther away, and none after
it is closer. -/
def ComesFirst (names : List String) (wanted name : String) (k : Nat) : Prop :=
  ∃ front back, names = front ++ name :: back ∧
    (∀ other ∈ front, k < editDistance other.toList wanted.toList) ∧
    ∀ other ∈ back, k ≤ editDistance other.toList wanted.toList

/-- **Names among which a wanted one is found** as what it is: no name is near enough to be found at all, or the wanted
name is there, or its raw identifier is closest, or a function without a name. -/
def Attributable (names : List String) (wanted : String) : Prop :=
  (∀ name ∈ names, maxsize ≤ editDistance name.toList wanted.toList) ∨ wanted ∈ names ∨
    ComesFirst names wanted ("r#" ++ wanted) 2 ∨ ComesFirst names wanted "" wanted.length

/-- **Names among which a fixed function is found** as what it is. -/
def Fixable (names : List String) (wanted : String) : Prop :=
  wanted ∈ names ∨ ComesFirst names wanted ("r#" ++ wanted) 2

section Names

variable {names : List String} {wanted name other : String} {k l : Nat}

/-- A name is two edits away from its raw form, so close that no other name need be closer. -/
theorem editDistance_raw (wanted : String) : editDistance ("r#" ++ wanted).toList wanted.toList = 2 := by
  rw [editDistance_eq, String.toList_append]
  exact levenshtein_append_left _ _

/-- The empty name is as many edits away as the wanted one has characters. -/
theorem editDistance_empty (wanted : String) : editDistance "".toList wanted.toList = wanted.length := by
  rw [editDistance_eq, String.toList_empty, levenshtein_nil_left, String.length_toList]

/-- A name is no edit away from itself, which makes an exact match the closest one. -/
theorem editDistance_self (wanted : String) : editDistance wanted.toList wanted.toList = 0 := by
  rw [editDistance_eq, levenshtein_eq_zero]

/-- What comes first is one of the names. -/
theorem ComesFirst.mem (h : ComesFirst names wanted name k) : name ∈ names := by
  obtain ⟨front, back, rfl, -⟩ := h
  exact List.mem_append_right _ List.mem_cons_self

/-- No name is closer than the one that comes first. -/
theorem ComesFirst.le (h : ComesFirst names wanted name (editDistance name.toList wanted.toList))
    (hother : other ∈ names) :
    editDistance name.toList wanted.toList ≤ editDistance other.toList wanted.toList := by
  obtain ⟨front, back, rfl, hfront, hback⟩ := h
  rcases List.mem_append.mp hother with hmem | hmem
  · exact (hfront other hmem).le
  · rcases List.mem_cons.mp hmem with rfl | hmem
    · exact le_refl _
    · exact hback other hmem

/-- Only one name comes first. -/
theorem ComesFirst.unique (h : ComesFirst names wanted name (editDistance name.toList wanted.toList))
    (hother : ComesFirst names wanted other (editDistance other.toList wanted.toList)) : name = other := by
  have hle := h.le hother.mem
  have hge := hother.le h.mem
  obtain ⟨front, back, hsplit, hfront, -⟩ := h
  obtain ⟨front', back', hsplit', hfront', -⟩ := hother
  rcases List.append_eq_append_iff.mp (hsplit.symm.trans hsplit') with ⟨middle, hmiddle, hrest⟩ |
    ⟨middle, hmiddle, hrest⟩
  · rcases middle with - | ⟨c, middle⟩
    · exact (List.cons.inj hrest).1
    · have := hfront' name (hmiddle ▸ List.mem_append_right _ ((List.cons.inj hrest).1 ▸ List.mem_cons_self))
      omega
  · rcases middle with - | ⟨c, middle⟩
    · exact (List.cons.inj hrest).1.symm
    · have := hfront other (hmiddle ▸ List.mem_append_right _ ((List.cons.inj hrest).1 ▸ List.mem_cons_self))
      omega

/-- **Where a name comes first**, the wanted one is found as what it is if that is its name. -/
theorem fixable_iff (h : ComesFirst names wanted name (editDistance name.toList wanted.toList)) :
    Fixable names wanted ↔ Named wanted name := by
  constructor
  · intro hfixable
    rcases hfixable with hmem | hraw
    · have hzero := h.le hmem
      rw [editDistance_self, Nat.le_zero, editDistance_eq, levenshtein_eq_zero, String.toList_inj] at hzero
      exact .inl hzero
    · exact .inr (h.unique (by rwa [editDistance_raw]))
  · intro hname
    rcases hname with rfl | rfl
    · exact .inl h.mem
    · exact .inr (by rwa [editDistance_raw] at h)

/-- The same for a signature, which is not taken from a function without a name. -/
theorem attributable_iff (h : ComesFirst names wanted name (editDistance name.toList wanted.toList))
    (hnear : editDistance name.toList wanted.toList < maxsize) :
    Attributable names wanted ↔ name = "" ∨ Named wanted name := by
  constructor
  · intro hattributable
    rcases hattributable with hfar | hmem | hraw | hempty
    · exact absurd (hfar name h.mem) (Nat.not_le_of_lt hnear)
    · exact .inr ((fixable_iff h).mp (.inl hmem))
    · exact .inr ((fixable_iff h).mp (.inr hraw))
    · exact .inl (h.unique (by rwa [editDistance_empty]))
  · intro hname
    rcases hname with rfl | hnamed
    · exact .inr (.inr (.inr (by rwa [editDistance_empty] at h)))
    · rcases (fixable_iff h).mpr hnamed with hmem | hraw
      · exact .inr (.inl hmem)
      · exact .inr (.inr (.inl hraw))

end Names

/-- **What a search finds**: nothing if all functions are too far away, and else the one that comes first. -/
theorem visitTargets_comesFirst (read : SyntaxNode → FunctionReading) (wanted : String) (root : SyntaxNode) :
    (∀ c ∈ functionsIn read root, maxsize ≤ editDistance c.1.toList wanted.toList) ∧
        visitTargets read wanted .start root = .start ∨
      ∃ c ∈ functionsIn read root, ComesFirst ((functionsIn read root).map Prod.fst) wanted c.1
          (editDistance c.1.toList wanted.toList) ∧ editDistance c.1.toList wanted.toList < maxsize ∧
        visitTargets read wanted .start root = ⟨c.1, editDistance c.1.toList wanted.toList, some c.2⟩ := by
  rw [visitTargets_eq]
  rcases foldl_offer wanted (functionsIn read root) .start with ⟨hsame, hfar⟩ | hfound
  · exact .inl ⟨hfar, hsame⟩
  · obtain ⟨front, c, back, hsplit, hnear, hfront, hback, hfold⟩ := hfound
    refine .inr ⟨c, hsplit ▸ List.mem_append_right _ List.mem_cons_self,
      ⟨front.map Prod.fst, back.map Prod.fst, ?_, ?_, ?_⟩,
      hnear, hfold⟩
    · rw [hsplit, List.map_append, List.map_cons]
    · exact List.forall_mem_map.mpr hfront
    · exact List.forall_mem_map.mpr hback

/-! ## Functions in Rust -/

/-- A function of the name in a Rust tree. -/
def IsRustFunction (src : List Char) (name : String) (node : SyntaxNode) : Prop :=
  node.type ∈ ["function_definition", "function_item"] ∧
    (node.childByFieldName "name").map (SyntaxNode.text src) = some name

/-- What the search reads in a Rust node, and below it. -/
theorem functionsIn_rust (src : List Char) (node : SyntaxNode) :
    functionsIn (rustReading src) node = functionsInAll (rustReading src) node.children ∨
      ∃ name, node.type = "function_item" ∧ (node.childByFieldName "name").map (SyntaxNode.text src) = some name ∧
        functionsIn (rustReading src) node = (name, node) :: functionsInAll (rustReading src) node.children := by
  obtain ⟨field, type, startByte, endByte, children⟩ := node
  rw [functionsIn]
  by_cases htype : (SyntaxNode.node field type startByte endByte children).type = "function_item"
  · rw [rustReading, if_pos htype]
    cases hname : (SyntaxNode.node field type startByte endByte children).childByFieldName "name" with
    | none => exact .inl rfl
    | some nameNode => exact .inr ⟨nameNode.text src, htype, rfl, rfl⟩
  · rw [rustReading, if_neg htype]
    exact .inl rfl

mutual

/-- The search comes to functions of the tree only. -/
theorem isRustFunction_of_mem {src : List Char} {function : String × SyntaxNode} : ∀ {node : SyntaxNode},
    function ∈ functionsIn (rustReading src) node →
      function.2 ∈ node.preorder ∧ IsRustFunction src function.1 function.2
  | .node field type startByte endByte children, h => by
    rcases functionsIn_rust src (.node field type startByte endByte children) with hbelow | ⟨name, htype, hname, hcons⟩
    · rw [hbelow] at h
      exact (isRustFunction_of_memAll h).imp_left (List.mem_cons_of_mem _)
    · rw [hcons] at h
      rcases List.mem_cons.mp h with rfl | h
      · exact ⟨List.mem_cons_self, List.mem_cons_of_mem _ (List.mem_singleton.mpr htype), hname⟩
      · exact (isRustFunction_of_memAll h).imp_left (List.mem_cons_of_mem _)

/-- What is read off a list of trees is a function of one of them, by induction along with that over
a single tree. -/
theorem isRustFunction_of_memAll {src : List Char} {function : String × SyntaxNode} : ∀ {nodes : List SyntaxNode},
    function ∈ functionsInAll (rustReading src) nodes →
      function.2 ∈ SyntaxNode.preorderAll nodes ∧ IsRustFunction src function.1 function.2
  | [], h => absurd h List.not_mem_nil
  | child :: children, h => by
    rw [functionsInAll] at h
    rcases List.mem_append.mp h with h | h
    · exact (isRustFunction_of_mem h).imp_left (List.mem_append_left _)
    · exact (isRustFunction_of_memAll h).imp_left (List.mem_append_right _)

end

mutual

/-- What `find_func` finds is a function of the name. -/
theorem findFunc_sound {src : List Char} {name : String} {res : SyntaxNode} : ∀ {node : SyntaxNode},
    findFunc src name node = some res → res ∈ node.preorder ∧ IsRustFunction src name res
  | .node .., h => (findFuncIn_sound h).imp_left (List.mem_cons_of_mem _)

/-- What is found by its name in a list of trees is a function of that name in one of them. -/
theorem findFuncIn_sound {src : List Char} {name : String} {res : SyntaxNode} : ∀ {nodes : List SyntaxNode},
    findFuncIn src name nodes = some res → res ∈ SyntaxNode.preorderAll nodes ∧ IsRustFunction src name res
  | [], h => absurd h (by simp [findFuncIn])
  | child :: children, h => by
    rw [findFuncIn] at h
    split at h
    · rename_i hchild
      obtain rfl := Option.some.inj h
      refine ⟨List.mem_append_left _ ?_, hchild⟩
      cases child
      exact List.mem_cons_self
    · split at h
      · rename_i found hfound
        obtain rfl := Option.some.inj h
        exact (findFunc_sound hfound).imp_left (List.mem_append_left _)
      · exact (findFuncIn_sound h).imp_left (List.mem_append_right _)

end

mutual

/-- **`find_func` finds a function** below a node if the search comes to one of the name there. -/
theorem findFunc_isSome {src : List Char} {name : String} : ∀ {node : SyntaxNode},
    name ∈ (functionsInAll (rustReading src) node.children).map Prod.fst → (findFunc src name node).isSome
  | .node .., h => findFuncIn_isSome h

/-- A function whose name is among those read off the trees is found. -/
theorem findFuncIn_isSome {src : List Char} {name : String} : ∀ {nodes : List SyntaxNode},
    name ∈ (functionsInAll (rustReading src) nodes).map Prod.fst → (findFuncIn src name nodes).isSome
  | [], h => absurd h List.not_mem_nil
  | child :: children, h => by
    rw [findFuncIn]
    split
    · rfl
    · rename_i hchild
      split
      · rfl
      · rename_i hnone
        rw [functionsInAll, List.map_append] at h
        rcases List.mem_append.mp h with h | h
        · -- a function in this child, but not the child itself
          have hbelow : name ∈ (functionsInAll (rustReading src) child.children).map Prod.fst := by
            rcases functionsIn_rust src child with hbelow | ⟨other, htype, hother, hcons⟩
            · exact hbelow ▸ h
            · rw [hcons, List.map_cons] at h
              rcases List.mem_cons.mp h with rfl | h
              · exact absurd ⟨List.mem_cons_of_mem _ (List.mem_singleton.mpr htype), hother⟩ hchild
              · exact h
          have hsome := findFunc_isSome hbelow
          rw [hnone] at hsome
          exact absurd hsome (by decide)
        · exact findFuncIn_isSome h

end

/-! ## Attributions -/

namespace TargetParser

variable (parser : TargetParser) (src : List Char)

/-- **The functions of a text**, with their names. -/
def Defines (function : String × SyntaxNode) : Prop :=
  match parser.lang with
  | .rust => function.2 ∈ (parser.parse src).preorder ∧ IsRustFunction src function.1 function.2
  | .cpp => function ∈ functionsIn (cppReading src) (parser.parse src)

/-- The names a search comes to. -/
def names : List String := (functionsIn (parser.reading src) (parser.parse src)).map Prod.fst

variable {parser src}

/-- What is read off the parsed source is defined in it. -/
theorem defines_of_mem {function : String × SyntaxNode}
    (h : function ∈ functionsIn (parser.reading src) (parser.parse src)) : parser.Defines src function := by
  rw [reading] at h
  rw [Defines]
  cases hlang : parser.lang with
  | rust =>
    rw [hlang] at h
    exact isRustFunction_of_mem h
  | cpp =>
    rw [hlang] at h
    exact h

/-- **A search in the text.** -/
theorem findTarget_eq (wanted : String) : parser.findTarget src wanted =
    ((visitTargets (parser.reading src) wanted .start (parser.parse src)).name,
      (visitTargets (parser.reading src) wanted .start (parser.parse src)).node) := by
  rw [findTarget, reading]
  cases parser.lang <;> rfl

/-- **The function fetched for a name that is there** has that name. -/
theorem fetchFunction_of_mem {name : String} (h : name ∈ parser.names src) :
    ∃ node, parser.fetchFunction src name = some (name, node) ∧ parser.Defines src (name, node) := by
  obtain ⟨hname, node, hnode, hmem⟩ := visitTargets_exact h
  rw [names, reading] at h
  rw [reading] at hname hnode hmem
  cases hlang : parser.lang with
  | rust =>
    rw [hlang] at h hname
    have hroot : name ∈ (functionsInAll (rustReading src) (parser.parse src).children).map Prod.fst := by
      rcases functionsIn_rust src (parser.parse src) with hbelow | ⟨other, htype, -⟩
      · exact hbelow ▸ h
      · exact absurd htype (parser.isRoot src)
    obtain ⟨res, hres⟩ := Option.isSome_iff_exists.mp (findFunc_isSome hroot)
    have htarget : findTargetRustFunction src (parser.parse src) name = name := hname
    refine ⟨res, ?_, ?_⟩
    · simp only [fetchFunction, hlang, htarget, hres, Option.map_some]
    · simp only [Defines, hlang]
      exact findFunc_sound hres
  | cpp =>
    rw [hlang] at hname hnode hmem
    have htarget : findTargetCppFunction src (parser.parse src) name = (name, some node) := Prod.ext hname hnode
    refine ⟨node, ?_, ?_⟩
    · simp only [fetchFunction, hlang, htarget, Option.map_some]
    · simp only [Defines, hlang]
      exact hmem

/-- **What is found for a name**: nothing, or the function that comes first. -/
theorem foundFunction_spec (wanted : String) :
    (∀ name ∈ parser.names src, maxsize ≤ editDistance name.toList wanted.toList) ∧
        parser.foundFunction src wanted = none ∧ parser.attributed src wanted = none ∨
      ∃ function, parser.Defines src function ∧ ComesFirst (parser.names src) wanted function.1
          (editDistance function.1.toList wanted.toList) ∧ editDistance function.1.toList wanted.toList < maxsize ∧
        parser.foundFunction src wanted = some function ∧
        (function.1 = "" ∧ parser.attributed src wanted = none ∨
          function.1 ≠ "" ∧
            ∃ node, parser.Defines src (function.1, node) ∧ parser.attributed src wanted = some (function.1, node)) := by
  rw [foundFunction, attributed, findTarget_eq]
  rcases visitTargets_comesFirst (parser.reading src) wanted (parser.parse src) with
    ⟨hfar, hstart⟩ | ⟨function, hmem, hfirst, hnear, hfound⟩
  · rw [hstart]
    exact .inl ⟨List.forall_mem_map.mpr hfar, rfl, rfl⟩
  · rw [hfound]
    refine .inr ⟨function, defines_of_mem hmem, hfirst, hnear, rfl, ?_⟩
    by_cases hempty : function.1 = ""
    · exact .inl ⟨hempty, if_pos hempty⟩
    · obtain ⟨node, hfetch, hdefines⟩ := @fetchFunction_of_mem parser _ _ (List.mem_map.mpr ⟨function, hmem, rfl⟩)
      refine .inr ⟨hempty, node, hdefines, ?_⟩
      dsimp only
      rw [if_neg hempty, hfetch, Option.filter_some, if_pos (decide_eq_true rfl)]

/-- **A signature is attributed exactly** if its name is attributable. -/
theorem attributed_iff (wanted : String) :
    (∀ function ∈ parser.attributed src wanted, Named wanted function.1 ∧ parser.Defines src function) ↔
      Attributable (parser.names src) wanted := by
  rcases @foundFunction_spec parser src wanted with
    ⟨hfar, -, hnone⟩ | ⟨function, -, hfirst, hnear, -, hattributed⟩
  · rw [hnone]
    exact ⟨fun _ => .inl hfar, fun _ _ h => absurd h (by simp)⟩
  · rw [attributable_iff hfirst hnear]
    rcases hattributed with ⟨hempty, hnone⟩ | ⟨hempty, node, hdefines, hsome⟩
    · rw [hnone]
      exact ⟨fun _ => .inl hempty, fun _ _ h => absurd h (by simp)⟩
    · rw [hsome]
      constructor
      · intro hexact
        exact .inr (hexact _ rfl).1
      · intro hname found hfound
        obtain rfl := Option.mem_some.mp hfound
        exact ⟨hname.resolve_left hempty, hdefines⟩

/-- **The signature that is recorded** for an attributable name is that of a function of this name, or what it was. -/
theorem recordSignature_of_attributable (charClass : CharClass) (old : String) {wanted : String}
    (h : Attributable (parser.names src) wanted) :
    parser.recordSignature src charClass old wanted = old ∨ ∃ function, Named wanted function.1 ∧
      parser.Defines src function ∧
        parser.recordSignature src charClass old wanted = parser.signatureOf src charClass function := by
  have hexact := (attributed_iff wanted).mpr h
  rw [recordSignature]
  cases hfound : parser.attributed src wanted with
  | none => exact .inl rfl
  | some function =>
    obtain ⟨hname, hdefines⟩ := hexact function hfound
    exact .inr ⟨function, hname, hdefines, rfl⟩

/-- **A fixed function is taken exactly** if its name is fixable, or nothing is found for it. -/
theorem foundFunction_iff (wanted : String) :
    (∀ function ∈ parser.foundFunction src wanted, Named wanted function.1 ∧ parser.Defines src function) ↔
      (∀ name ∈ parser.names src, maxsize ≤ editDistance name.toList wanted.toList) ∨
        Fixable (parser.names src) wanted := by
  rcases @foundFunction_spec parser src wanted with
    ⟨hfar, hnone, -⟩ | ⟨function, hdefines, hfirst, hnear, hsome, -⟩
  · rw [hnone]
    exact ⟨fun _ => .inl hfar, fun _ _ h => absurd h (by simp)⟩
  · rw [fixable_iff hfirst, hsome]
    constructor
    · intro hexact
      exact .inr (hexact _ rfl).1
    · intro hname found hfound
      obtain rfl := Option.mem_some.mp hfound
      exact ⟨hname.resolve_left fun hfar => absurd (hfar _ hfirst.mem) (Nat.not_le_of_lt hnear), hdefines⟩

/-- Nothing is found exactly if every name of the source is further from the wanted one than the
start value, which then is never replaced. -/
theorem foundFunction_isNone (wanted : String) : parser.foundFunction src wanted = none ↔
    ∀ name ∈ parser.names src, maxsize ≤ editDistance name.toList wanted.toList := by
  rcases @foundFunction_spec parser src wanted with
    ⟨hfar, hnone, -⟩ | ⟨function, -, hfirst, hnear, hsome, -⟩
  · exact ⟨fun _ => hfar, fun _ => hnone⟩
  · rw [hsome]
    exact ⟨fun h => absurd h (by simp), fun hfar => absurd (hfar _ hfirst.mem) (Nat.not_le_of_lt hnear)⟩

/-- **Exact signatures**: each that is recorded is the one of a function of that name, and a name that is not defined
is missing and gets none. -/
structure ExactSignatures (parser : TargetParser) (src : List Char)
    (result : List (String × Option (String × SyntaxNode)) × List String) : Prop where
  named : ∀ entry ∈ result.1, ∀ function ∈ entry.2, Named entry.1 function.1 ∧ parser.Defines src function
  missing : ∀ entry ∈ result.1, (∀ function, parser.Defines src function → ¬ Named entry.1 function.1) →
    entry.2 = none ∧ entry.1 ∈ result.2

/-- The signatures of a group are the right ones exactly if each wanted name can be attributed. -/
theorem extractSccFunctionSignatures_iff (sccGroup : List String) :
    ExactSignatures parser src (parser.extractSccFunctionSignatures src sccGroup) ↔
      ∀ wanted ∈ sccGroup, Attributable (parser.names src) wanted := by
  constructor
  · intro hexact wanted hwanted
    exact (attributed_iff wanted).mp (hexact.named _ (List.mem_map.mpr ⟨wanted, hwanted, rfl⟩))
  · intro hattributable
    have hnamed : ∀ wanted ∈ sccGroup, ∀ function ∈ parser.attributed src wanted,
        Named wanted function.1 ∧ parser.Defines src function :=
      fun wanted hwanted => (attributed_iff wanted).mpr (hattributable wanted hwanted)
    refine ⟨List.forall_mem_map.mpr hnamed, List.forall_mem_map.mpr fun wanted hwanted habsent => ?_⟩
    have hnone : parser.attributed src wanted = none := by
      cases hsome : parser.attributed src wanted with
      | none => rfl
      | some function =>
        obtain ⟨hname, hdefines⟩ := hnamed wanted hwanted function hsome
        exact absurd hname (habsent function hdefines)
    exact ⟨hnone, List.mem_filter.mpr ⟨hwanted, by rw [hnone]; rfl⟩⟩

/-- **An exact fix**: the functions taken from the file are those of the wanted names. -/
def ExactFix (parser : TargetParser) (src : List Char) (wanted : List String)
    (accepted : Option (List (String × SyntaxNode))) : Prop :=
  ∀ functions ∈ accepted,
    List.Forall₂ (fun name function => Named name function.1 ∧ parser.Defines src function) wanted functions

/-- Going through a list with a function that never fails loses no place, so the results can be
compared position by position. -/
theorem forall₂_filterMap {α β : Type} {f : α → Option β} {p : α → β → Prop} {l : List α} (h : ∀ a ∈ l, f a ≠ none) :
    List.Forall₂ p l (l.filterMap f) ↔ ∀ a ∈ l, ∀ b ∈ f a, p a b := by
  induction l with
  | nil => simp
  | cons a l ih =>
    obtain ⟨hhead, htail⟩ := List.forall_mem_cons.mp h
    obtain ⟨b, hb⟩ := Option.ne_none_iff_exists'.mp hhead
    rw [List.filterMap_cons, hb, List.forall₂_cons, ih htail, List.forall_mem_cons, hb]
    simp

/-- An accepted fix is the right one exactly if it is refused, since some name has no candidate, or
each name has the right one. -/
theorem acceptFix_iff (wanted : List String) :
    ExactFix parser src wanted (parser.acceptFix src wanted) ↔
      (∃ name ∈ wanted, ∀ other ∈ parser.names src, maxsize ≤ editDistance other.toList name.toList) ∨
        ∀ name ∈ wanted, Fixable (parser.names src) name := by
  rw [acceptFix]
  by_cases hmissing : ∃ name ∈ wanted, parser.foundFunction src name = none
  · obtain ⟨name, hname, hnone⟩ := hmissing
    have hne : wanted.filter (fun funcName => (parser.foundFunction src funcName).isNone) ≠ [] :=
      List.ne_nil_of_mem (List.mem_filter.mpr ⟨hname, by rw [hnone]; rfl⟩)
    rw [if_neg hne]
    exact ⟨fun _ => .inl ⟨name, hname, (foundFunction_isNone name).mp hnone⟩, fun _ _ h => absurd h (by simp)⟩
  · have hfound : ∀ name ∈ wanted, parser.foundFunction src name ≠ none := fun name hname hnone =>
      hmissing ⟨name, hname, hnone⟩
    have hnil : wanted.filter (fun funcName => (parser.foundFunction src funcName).isNone) = [] :=
      List.filter_eq_nil_iff.mpr fun name hname h => hfound name hname (Option.isNone_iff_eq_none.mp h)
    rw [if_pos hnil]
    have hnear : ∀ name ∈ wanted, ((∀ function ∈ parser.foundFunction src name,
        Named name function.1 ∧ parser.Defines src function) ↔ Fixable (parser.names src) name) := by
      intro name hname
      rw [foundFunction_iff, ← foundFunction_isNone]
      exact or_iff_right (hfound name hname)
    constructor
    · intro hexact
      have hall := (forall₂_filterMap hfound).mp (hexact _ rfl)
      exact .inr fun name hname => (hnear name hname).mp (hall name hname)
    · intro hfixable functions hfunctions
      obtain rfl := Option.mem_some.mp hfunctions
      refine (forall₂_filterMap hfound).mpr fun name hname => (hnear name hname).mpr ?_
      rcases hfixable with ⟨absent, habsent, hfar⟩ | hfixable
      · exact absurd ((foundFunction_isNone absent).mpr hfar) (hfound absent habsent)
      · exact hfixable name hname

/-- **What is accepted** comes from a file that was saved and compiles. -/
theorem offerManualFix_spec {compile : List Char → Bool} {wanted : List String} {attempts : List FixAttempt}
    {block : Option String} (h : parser.offerManualFix compile wanted attempts = some (true, block)) :
    ∃ editedSource functions, .saved (some editedSource) ∈ attempts ∧ compile editedSource = true ∧
      parser.acceptFix editedSource wanted = some functions ∧ block = some (fixedBlock editedSource functions) := by
  induction attempts with
  | nil => exact absurd h (by simp [offerManualFix])
  | cons attempt attempts ih =>
    have hlater : parser.offerManualFix compile wanted attempts = some (true, block) →
        ∃ editedSource functions, .saved (some editedSource) ∈ attempt :: attempts ∧ compile editedSource = true ∧
          parser.acceptFix editedSource wanted = some functions ∧ block = some (fixedBlock editedSource functions) := by
      intro hrest
      obtain ⟨editedSource, functions, hmem, hresult⟩ := ih hrest
      exact ⟨editedSource, functions, List.mem_cons_of_mem _ hmem, hresult⟩
    cases attempt with
    | eof => exact absurd h (by simp [offerManualFix])
    | skip => exact absurd h (by simp [offerManualFix])
    | saved editedSource =>
      cases editedSource with
      | none => exact hlater h
      | some editedSource =>
        rw [offerManualFix] at h
        split at h
        · rename_i hcompile
          split at h
          · rename_i functions haccept
            obtain ⟨-, rfl⟩ := Prod.mk.inj (Option.some.inj h)
            exact ⟨editedSource, functions, List.mem_cons_self, hcompile, haccept, rfl⟩
          · exact hlater h
        · exact hlater h

end TargetParser

/-- **Names are attributed exactly** if and only if each wanted one is attributable among the names of the text, and a
fixed file is taken exactly if and only if each is fixable there, or one is not found at all. -/
theorem attribution_iff (parser : TargetParser) :
    (∀ src sccGroup, TargetParser.ExactSignatures parser src (parser.extractSccFunctionSignatures src sccGroup) ↔
      ∀ wanted ∈ sccGroup, Attributable (parser.names src) wanted) ∧
    (∀ src wanted, (∀ function ∈ parser.attributed src wanted,
      Named wanted function.1 ∧ parser.Defines src function) ↔ Attributable (parser.names src) wanted) ∧
    (∀ src wanted, TargetParser.ExactFix parser src wanted (parser.acceptFix src wanted) ↔
      (∃ name ∈ wanted, ∀ other ∈ parser.names src, maxsize ≤ editDistance other.toList name.toList) ∨
        ∀ name ∈ wanted, Fixable (parser.names src) name) ∧
    ∀ compile wanted attempts block, parser.offerManualFix compile wanted attempts = some (true, block) →
      ∃ editedSource functions, .saved (some editedSource) ∈ attempts ∧ compile editedSource = true ∧
        parser.acceptFix editedSource wanted = some functions ∧
        block = some (TargetParser.fixedBlock editedSource functions) :=
  ⟨fun _ => TargetParser.extractSccFunctionSignatures_iff, fun _ => TargetParser.attributed_iff,
    fun _ => TargetParser.acceptFix_iff, fun _ _ _ _ => TargetParser.offerManualFix_spec⟩

/-- A parser whose trees have one function, `fn bar()`. -/
def barParser : TargetParser where
  lang := .rust
  parse _ := .node none "source_file" 0 11 [.node none "function_item" 0 11
    [.node none "fn" 0 2 [], .node (some "name") "identifier" 3 6 [], .node (some "parameters") "parameters" 6 8 [],
      .node (some "body") "block" 9 11 []]]
  isRoot _ := by decide

/-- **The signature of another function** is recorded for `foo`, which the text does not define. -/
theorem attribution_not : barParser.lang = .rust ∧
    ¬ TargetParser.ExactSignatures barParser "fn bar() {}".toList
      (barParser.extractSccFunctionSignatures "fn bar() {}".toList ["foo"]) := by
  refine ⟨rfl, fun h => ?_⟩
  have hnames : barParser.names "fn bar() {}".toList = ["bar"] := rfl
  have hattributable := TargetParser.extractSccFunctionSignatures_iff ["foo"] |>.mp h "foo" List.mem_cons_self
  rw [hnames] at hattributable
  rcases hattributable with hfar | hmem | hraw | hempty
  · have hthree : editDistance "bar".toList "foo".toList = 3 := rfl
    have := hfar "bar" List.mem_cons_self
    rw [hthree] at this
    exact absurd this (by decide)
  · exact absurd hmem (by decide)
  · exact absurd hraw.mem (by decide)
  · exact absurd hempty.mem (by decide)

end Assure
