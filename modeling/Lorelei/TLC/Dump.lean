import Mathlib.Data.List.Sort
import Mathlib.Data.String.Basic
import Lorelei.Lib.OrderedMap
import Lorelei.Support.ConfigIndex
import Lorelei.Support.Path

/-!
# `TLC dump`

The dump command looks for the functions that a config names in the declarations of any number
of translation units, and writes a header: an `#include` for each header that declares some of
them, and a declaration of its own for each function that is in no header. Such a declaration is
made of the types of the first one that is met, as far as the included headers provide them.

The declarations are the parameter of the model, in the order in which the matcher meets them.
A type is held with its text and with what it is made of.
-/

namespace Lorelei.TLC.Dump

open Support

/-! ## Declarations -/

/-- A type as it is written. A typedef, an enumeration or a record stands with the file that it is
declared in, if any, and whether it is a pointer; `builtin` is also a typedef of a builtin type, and
`attributed` one with an attribute behind it, which is looked through. -/
inductive WrittenType where
  | builtin
  | named (file : Option Str) (isPointer : Bool)
  | attributed (isPointer : Bool) (modified : WrittenType)
  | sugar (inner : WrittenType)
  | decayed (original : WrittenType)
  | pointer (pointee : WrittenType)
  | reference (pointee : WrittenType)
  | array (element : WrittenType)
  | function (returnType : WrittenType) (paramTypes : List WrittenType)
  | other

/-- `isPointerType`. -/
def WrittenType.isPointerType : WrittenType → Bool
  | named _ isPointer | attributed isPointer _ => isPointer
  | sugar inner => inner.isPointerType
  | decayed _ | pointer _ => true
  | _ => false

/-- A type with its text, in which arrays and functions are wrapped. -/
structure TypeSource where
  text : Str
  type : WrittenType

/-- A function declaration; it has no file if its place is unknown. -/
structure FunctionDecl where
  name : Str
  isCLinkage : Bool
  file : Option Str
  location : Str
  returnType : TypeSource
  params : List (Str × TypeSource)
  variadic : Bool

/-! ## The context -/

structure ResolvedFunction where
  headerPaths : Finset Str
  nonHeaderPaths : Finset Str

structure CapturedType where
  originalText : Str
  pointerLike : Bool
  headerPaths : Finset Str
  nonHeaderPaths : Finset Str

structure CapturedParam where
  name : Str
  type : CapturedType

structure CapturedFunction where
  sourcePath : Str
  sourceLocation : Str
  returnType : CapturedType
  params : List CapturedParam
  variadic : Bool

/-- A function is requested by the sections of the config that name it. -/
@[ext] structure GlobalContext where
  initialCwd : Str
  configPath : Str
  requestedFunctions : OrderedMap Str (Finset Str)
  resolvedFunctions : OrderedMap Str ResolvedFunction
  capturedFunctions : OrderedMap Str CapturedFunction

/-- `collectRequestedFunctionsFromSection`. -/
def collectRequestedFunctionsFromSection (config : ConfigFile)
    (requested : OrderedMap Str (Finset Str)) (sectionName : Str) : OrderedMap Str (Finset Str) :=
  match config.get sectionName with
  | none => requested
  | some section_ =>
      section_.keyValues.foldl (fun requested kv =>
        if kv.1 = [] then requested
        else requested.alter kv.1 fun sections => insert sectionName (sections.getD ∅)) requested

/-- The context that the matcher starts with. -/
def loadRequestedFunctions (initialCwd configPath : Str) (config : ConfigFile) :
    GlobalContext where
  initialCwd := initialCwd
  configPath := configPath
  requestedFunctions :=
    collectRequestedFunctionsFromSection config
      (collectRequestedFunctionsFromSection config .empty "Function".toList)
      "Guest Function".toList
  resolvedFunctions := .empty
  capturedFunctions := .empty

/-- `normalizePath`. -/
def normalizePath (initialCwd path : Str) : Str :=
  lexicallyNormal (if path.head? = some '/' then path else joinPath initialCwd path)

/-- `llvm::sys::path::extension`. -/
def extension (path : Str) : Str :=
  let fname := filename path
  if '.' ∉ fname ∨ fname = ['.'] ∨ fname = ['.', '.'] then [] else '.' :: fname.rtakeWhile (· ≠ '.')

def lowerExtension (path : Str) : Str := str.toLower (extension path)

def isLikelyHeaderPath (path : Str) : Bool :=
  lowerExtension path ∈ [".h", ".hh", ".hpp", ".hxx", ".h++", ".inc", ".inl", ".tcc"].map
    String.toList

/-! ## Capturing -/

mutual

/-- `collectTypeDependencies`: the files of the declarations that are added. -/
def collectTypeDependencies : WrittenType → List Str
  | .builtin | .other => []
  | .named file _ => file.toList
  | .attributed _ modified => collectTypeDependencies modified
  | .sugar inner => collectTypeDependencies inner
  | .decayed original => collectTypeDependencies original
  | .pointer pointee => collectTypeDependencies pointee
  | .reference pointee => collectTypeDependencies pointee
  | .array element => collectTypeDependencies element
  | .function returnType paramTypes =>
      collectTypeDependencies returnType ++ collectAllDependencies paramTypes

def collectAllDependencies : List WrittenType → List Str
  | [] => []
  | t :: ts => collectTypeDependencies t ++ collectAllDependencies ts

end

def captureType (initialCwd : Str) (type : TypeSource) : CapturedType :=
  let paths := (collectTypeDependencies type.type).map (normalizePath initialCwd)
  { originalText := type.text
    pointerLike := type.type.isPointerType
    headerPaths := (paths.filter isLikelyHeaderPath).toFinset
    nonHeaderPaths := (paths.filter fun path => !isLikelyHeaderPath path).toFinset }

/-- A parameter without a name is named by its position. -/
def captureParam (initialCwd : Str) (param : (Str × TypeSource) × Nat) : CapturedParam where
  name := if param.1.1 = [] then "arg".toList ++ Nat.toDigits 10 (param.2 + 1) else param.1.1
  type := captureType initialCwd param.1.2

def captureFunction (initialCwd : Str) (decl : FunctionDecl) : CapturedFunction where
  sourcePath := (decl.file.map (normalizePath initialCwd)).getD []
  sourceLocation := decl.location
  returnType := captureType initialCwd decl.returnType
  params := decl.params.zipIdx.map (captureParam initialCwd)
  variadic := decl.variadic

namespace GlobalContext

variable (g : GlobalContext)

/-- `matchCallback`. -/
def matchCallback (decl : FunctionDecl) : GlobalContext :=
  if !decl.isCLinkage then g
  else if (g.requestedFunctions.find decl.name).isNone then g
  else
    match decl.file with
    | none => g
    | some fileName =>
        let normalizedPath := normalizePath g.initialCwd fileName
        if isLikelyHeaderPath normalizedPath then
          { g with
            resolvedFunctions := g.resolvedFunctions.alter decl.name fun resolved =>
              let resolved := resolved.getD ⟨∅, ∅⟩
              { resolved with headerPaths := insert normalizedPath resolved.headerPaths } }
        else
          { g with
            resolvedFunctions := g.resolvedFunctions.alter decl.name fun resolved =>
              let resolved := resolved.getD ⟨∅, ∅⟩
              { resolved with nonHeaderPaths := insert normalizedPath resolved.nonHeaderPaths }
            capturedFunctions := g.capturedFunctions.alter decl.name fun captured =>
              captured.getD (captureFunction g.initialCwd decl) }

/-- All translation units. -/
def run (decls : List FunctionDecl) : GlobalContext := decls.foldl matchCallback g

end GlobalContext

/-! ## Types of fallback declarations -/

/-- `joinSet`. -/
def joinSet (items : Finset Str) : Str := ", ".toList.intercalate (SortedMap.elements items)

def appendReason (text reason : Str) : Str :=
  if text = [] then reason else text ++ "; ".toList ++ reason

def formatTypeTextWithName (typeText name : Str) : Str :=
  (if typeText ≠ [] ∧ typeText.getLast? ≠ some '*' then typeText ++ [' '] else typeText) ++ name

def isSafeBuiltinPointerBaseToken (token : Str) : Bool :=
  token ∈ ["void", "char", "short", "int", "long", "float", "double", "_Bool", "bool", "size_t",
    "ssize_t", "ptrdiff_t", "intptr_t", "uintptr_t", "int8_t", "uint8_t", "int16_t", "uint16_t",
    "int32_t", "uint32_t", "int64_t", "uint64_t", "intmax_t", "uintmax_t", "wchar_t"].map
    String.toList

/-- The words that `looksLikeUnresolvedNamedPointerType` passes over. -/
def isQualifierToken (token : Str) : Bool :=
  token ∈ ["const", "volatile", "restrict", "__restrict", "__restrict__", "signed", "unsigned",
    "struct", "union", "enum", "__typeof__"].map String.toList

def looksLikeUnresolvedNamedPointerType (typeText : Str) : Bool :=
  let normalized := typeText.map fun ch => if ch.isAlphanum || ch = '_' then ch else ' '
  let tokens := (normalized.splitOn ' ').filter (· ≠ [])
  match tokens.find? fun token => !isQualifierToken token with
  | some token => !isSafeBuiltinPointerBaseToken token
  | none => false

structure FallbackTypeDecision where
  allowed : Bool
  rewrittenToVoidPtr : Bool
  emittedTypeText : Str
  reason : Str

def decideFallbackType (type : CapturedType) (knownHeaders : Finset Str) (isReturnType : Bool) :
    FallbackTypeDecision :=
  let hasUnknownHeaderDeps := ¬ type.headerPaths ⊆ knownHeaders
  let hasNonHeaderDeps := type.nonHeaderPaths ≠ ∅
  let hasUnresolvedNamedPointer := type.pointerLike = true ∧ type.headerPaths = ∅ ∧
    type.nonHeaderPaths = ∅ ∧ looksLikeUnresolvedNamedPointerType type.originalText = true
  if ¬ hasUnknownHeaderDeps ∧ ¬ hasNonHeaderDeps ∧ ¬ hasUnresolvedNamedPointer then
    ⟨true, false, type.originalText, []⟩
  else
    let reason := if hasUnknownHeaderDeps then
        appendReason [] ("requires types from headers not already included: ".toList ++
          joinSet type.headerPaths)
      else []
    let reason := if hasNonHeaderDeps then
        appendReason reason ("references types only seen in non-header files: ".toList ++
          joinSet type.nonHeaderPaths)
      else reason
    let reason := if hasUnresolvedNamedPointer then
        appendReason reason "pointee type could not be resolved to an included header".toList
      else reason
    if type.pointerLike then ⟨true, true, "void *".toList, reason⟩
    else
      ⟨false, false, [],
        if reason ≠ [] then reason
        else if isReturnType then "unsupported return type".toList
        else "unsupported parameter type".toList⟩

/-! ## Fallback declarations -/

structure FallbackDeclDecision where
  allowed : Bool
  declText : Str
  notes : List Str
  errors : List Str

/-- A type that cannot be emitted. -/
def typeError (what : Str) (type : CapturedType) (decision : FallbackTypeDecision) : Str :=
  what ++ "`".toList ++ type.originalText ++ "` cannot be emitted: ".toList ++ decision.reason

/-- The note about a type that is rewritten. -/
def typeNote (what : Str) (type : CapturedType) (decision : FallbackTypeDecision) : List Str :=
  if decision.rewrittenToVoidPtr then
    [what ++ "`".toList ++ type.originalText ++ "` -> `void *` because ".toList ++ decision.reason]
  else []

/-- What the loop over the parameters has written, and whether nothing has been. -/
structure ParamsWritten where
  decl : Str
  first : Bool
  notes : List Str

/-- The body of that loop; an error ends it. -/
def emitParam (knownHeaders : Finset Str) (written : ParamsWritten) (param : CapturedParam) :
    Except FallbackDeclDecision ParamsWritten :=
  let decision := decideFallbackType param.type knownHeaders false
  if !decision.allowed then
    .error ⟨false, [], written.notes,
      [typeError ("parameter `".toList ++ param.name ++ "` of type ".toList) param.type decision]⟩
  else
    .ok
      { decl := (if written.first then written.decl else written.decl ++ ", ".toList) ++
          formatTypeTextWithName decision.emittedTypeText param.name
        first := false
        notes := written.notes ++
          typeNote ("parameter `".toList ++ param.name ++ "` rewritten: ".toList) param.type
            decision }

def buildFallbackDeclDecision (name : Str) (fn : CapturedFunction) (knownHeaders : Finset Str) :
    FallbackDeclDecision :=
  let returnDecision := decideFallbackType fn.returnType knownHeaders true
  if !returnDecision.allowed then
    ⟨false, [], [], [typeError "return type ".toList fn.returnType returnDecision]⟩
  else
    let notes := typeNote "return type rewritten: ".toList fn.returnType returnDecision
    let decl := returnDecision.emittedTypeText ++ " ".toList ++ name ++ "(".toList
    match fn.params.foldlM (emitParam knownHeaders) ⟨decl, true, notes⟩ with
    | .error out => out
    | .ok written =>
        let written := if fn.variadic then
            { written with
              decl := (if written.first then written.decl else written.decl ++ ", ".toList) ++
                "...".toList
              first := false }
          else written
        let decl := if written.first then written.decl ++ "void".toList else written.decl
        ⟨true, decl ++ ");".toList, written.notes, []⟩

/-! ## The output -/

structure FallbackDeclOutput where
  functionName : Str
  sourcePath : Str
  sourceLocation : Str
  declText : Str
  notes : List Str
  errors : List Str

/-- What `buildOutput` collects before it writes. -/
structure Output where
  missingFunctions : List Str
  nonHeaderOnlyFunctions : List Str
  headerToFunctions : OrderedMap Str (List Str)
  fallbackDecls : List FallbackDeclOutput

namespace GlobalContext

variable (g : GlobalContext)

/-- `describeFunction`, for an entry of the requested functions. -/
def describeFunction (requested : Str × Finset Str) : Str :=
  requested.1 ++ " [".toList ++ joinSet requested.2 ++ "]".toList

/-- The paths that a function has been found in. -/
def resolved (name : Str) : ResolvedFunction := (g.resolvedFunctions.find name).getD ⟨∅, ∅⟩

/-- The body of the first loop over the requested functions. -/
def classify (out : Output) (requested : Str × Finset Str) : Output :=
  let found := g.resolved requested.1
  if found.headerPaths = ∅ then
    if found.nonHeaderPaths ≠ ∅ then
      { out with
        nonHeaderOnlyFunctions := out.nonHeaderOnlyFunctions ++
          [describeFunction requested ++ " found only in non-header files: ".toList ++
            joinSet found.nonHeaderPaths] }
    else
      { out with
        missingFunctions := out.missingFunctions ++
          [describeFunction requested ++ " missing".toList] }
  else
    let description := if found.nonHeaderPaths ≠ ∅ then
        describeFunction requested ++ " (also seen in non-header files)".toList
      else describeFunction requested
    { out with
      headerToFunctions := (SortedMap.elements found.headerPaths).foldl
        (fun headers headerPath => headers.alter headerPath fun functions =>
          functions.getD [] ++ [description]) out.headerToFunctions }

/-- The body of the second loop. -/
def fallback (knownHeaders : Finset Str) (requested : Str × Finset Str) :
    Option FallbackDeclOutput :=
  match g.resolvedFunctions.find requested.1 with
  | none => none
  | some found =>
      if found.headerPaths ≠ ∅ then none
      else
        (g.capturedFunctions.find requested.1).map fun captured =>
          let decision := buildFallbackDeclDecision requested.1 captured knownHeaders
          { functionName := requested.1
            sourcePath := captured.sourcePath
            sourceLocation := captured.sourceLocation
            declText := if decision.allowed then decision.declText else []
            notes := decision.notes
            errors := decision.errors }

/-- `buildOutput`, up to the text. -/
def output : Output :=
  let out := g.requestedFunctions.entries.foldl g.classify ⟨[], [], .empty, []⟩
  let knownHeaders := (out.headerToFunctions.entries.map Prod.fst).toFinset
  let fallbackDecls := g.requestedFunctions.entries.filterMap (g.fallback knownHeaders)
  { missingFunctions := out.missingFunctions.insertionSort (· ≤ ·)
    nonHeaderOnlyFunctions := out.nonHeaderOnlyFunctions.insertionSort (· ≤ ·)
    headerToFunctions := out.headerToFunctions
    fallbackDecls := fallbackDecls.insertionSort fun a b => a.functionName ≤ b.functionName }

end GlobalContext

/-! ## The text -/

/-- `escapeForInclude`. -/
def escapeForInclude (path : Str) : Str :=
  path.flatMap fun ch => if ch = '\\' ∨ ch = '"' then ['\\', ch] else [ch]

def appendFunctionListComment (title : Str) (lines : List Str) : Str :=
  "/*\n".toList ++ " * ".toList ++ title ++ "\n".toList ++
    lines.flatMap (fun line => " * - ".toList ++ line ++ "\n".toList) ++ " */\n".toList

/-- A comment with the functions of a class, if there are any. -/
def functionListText (title : String) (functions : List Str) : Str :=
  if functions = [] then []
  else appendFunctionListComment title.toList functions ++ "\n".toList

def headerText (header : Str × List Str) : Str :=
  appendFunctionListComment "Functions declared in this header:".toList
      (header.2.insertionSort (· ≤ ·)) ++
    "#include \"".toList ++ escapeForInclude header.1 ++ "\"\n\n".toList

def fallbackText (fallback : FallbackDeclOutput) : Str :=
  "/*\n".toList ++ " * Fallback for ".toList ++ fallback.functionName ++ "\n".toList ++
    (if fallback.sourcePath = [] then []
      else " * Source: ".toList ++ fallback.sourcePath ++ "\n".toList) ++
    (if fallback.sourceLocation = [] then []
      else " * Source location: ".toList ++ fallback.sourceLocation ++ "\n".toList) ++
    (if fallback.notes = [] then " * Rewrites: none\n".toList
      else " * Rewrites:\n".toList ++
        fallback.notes.flatMap fun note => " * - ".toList ++ note ++ "\n".toList) ++
    (if fallback.errors = [] then " * Status: declaration synthesized below\n".toList
      else " * Status: cannot synthesize declaration\n".toList ++
        fallback.errors.flatMap fun error => " * - ".toList ++ error ++ "\n".toList) ++
    " */\n".toList ++
    (if fallback.errors = [] then fallback.declText ++ "\n\n".toList else "\n".toList)

/-- What `buildOutput` writes. -/
def Output.text (out : Output) (configPath : Str) : Str :=
  "#pragma once\n\n".toList ++ "/*\n".toList ++ " * Auto-generated by LoreTLC dump.\n".toList ++
    " * Config: ".toList ++ configPath ++ "\n".toList ++ " */\n\n".toList ++
    functionListText "Missing configured functions:" out.missingFunctions ++
    functionListText "Configured functions found only in non-header files:"
      out.nonHeaderOnlyFunctions ++
    out.headerToFunctions.entries.flatMap headerText ++
    (if out.fallbackDecls = [] then []
      else "/*\n".toList ++
        " * Fallback declarations synthesized from non-header source files.\n".toList ++
        (" * These are emitted after all includes so they may reuse already included " ++
          "types.\n").toList ++
        " */\n\n".toList ++ out.fallbackDecls.flatMap fallbackText)

def GlobalContext.buildOutput (g : GlobalContext) : Str := g.output.text g.configPath

end Lorelei.TLC.Dump
