import Lorelei.Lib.SortedMap
import Lorelei.TLC.Declarations

/-!
# `TLC stat`

The stat command looks up the functions and callbacks that a config names and collects
every function pointer type that can be reached from them, under its spelling. The
matchers fill maps from names and collect the described callbacks; the config sections
come after them. `stat` lists the calls of `collectCallbackSignatures` in this order and
makes them; they write nothing but the summary.
-/

namespace Lorelei.TLC

open Support

/-- `ManifestSummary::CallbackInfo`. -/
structure CallbackInfo where
  signature : String
  alias_ : String := ""
  origin : String := ""
deriving DecidableEq, Repr

/-- `ManifestSummary::addCallbackSignature`: the first alias and the first origin stay. -/
def addCallbackSignature (callbacks : List CallbackInfo)
    (signature origin preferredAlias : String) :
    List CallbackInfo :=
  SortedMap.alter CallbackInfo.signature signature (fun info? =>
    let info := info?.getD ⟨signature, "", ""⟩
    { signature := signature
      alias_ := if preferredAlias ≠ "" && info.alias_ = "" then preferredAlias else info.alias_
      origin := if origin ≠ "" && info.origin = "" then origin else info.origin }) callbacks

/-! ## Collecting signatures -/

/-- A type on the stack, with where it was found. -/
abbrev StackItem := QualType × String

/-- The result and the parameters of a function, as they are pushed. -/
def signatureItems (origin : String) : QualType → List StackItem
  | .functionProto returnType paramTypes _ =>
      (if returnType.isVoidType then [] else [(returnType, origin ++ "@ret")]) ++
        paramTypes.mapIdx fun i type => (type, origin ++ "@arg" ++ toString (i + 1))
  | .functionNoProto returnType =>
      if returnType.isVoidType then [] else [(returnType, origin ++ "@ret")]
  | _ => []

/-- What handling an item pushes. -/
def stackItems (records : List RecordDecl) : StackItem → List StackItem
  | (.pointer _ pointee, origin) =>
      if pointee.isFunctionType then signatureItems origin pointee
      else [(pointee, origin ++ "@ptr")]
  | (.array element _, origin) => [(element, origin ++ "@array")]
  | (type, origin) => (fieldsOf records type).map fun field => (field.2, origin ++ "@" ++ field.1)

/-- A call of `collectCallbackSignatures`, with the named aliases known by then. -/
structure CollectCall where
  seedType : QualType
  seedOrigin : String
  preferredAlias : String
  includeSeed : Bool
  namedAliases : Str → Option String

namespace CollectCall

variable (getAsString : QualType → Str) (records : List RecordDecl) (call : CollectCall)

/-- The stack at first, its top in front. Without the seed it holds the signature of the
seed. -/
def stack : List StackItem :=
  if call.includeSeed then [(call.seedType, call.seedOrigin)]
  else
    match call.seedType.callee? with
    | some pointee => (signatureItems call.seedOrigin pointee).reverse
    | none => [(call.seedType, call.seedOrigin)]

/-- The alias that a function pointer type is registered with. -/
def aliasOf (item : StackItem) : String :=
  if call.preferredAlias ≠ "" && item.2 = call.seedOrigin then call.preferredAlias
  else (call.namedAliases (getTypeString getAsString item.1)).getD ""

/-- The items that are not skipped. -/
def items (fuel : Nat) : Option (List StackItem) :=
  Worklist.walk (fun item => getTypeString getAsString item.1) (stackItems records) fuel
    call.stack []

end CollectCall

/-- `collectCallbackSignatures`. -/
def collectCallbackSignatures (getAsString : QualType → Str) (records : List RecordDecl)
    (fuel : Nat) (callbacks : List CallbackInfo) (call : CollectCall) :
    Option (List CallbackInfo) :=
  (call.items getAsString records fuel).map fun items =>
    (items.filter fun item => item.1.isFunctionPointerType).foldl (fun callbacks item =>
      addCallbackSignature callbacks (String.ofList (getTypeString getAsString item.1)) item.2
        (call.aliasOf getAsString item)) callbacks

/-! ## The matchers -/

/-- What the matchers collect. -/
structure StatMaps where
  procFnDescDataMap : String → Option (Option QualType) := fun _ => none
  functionMap : String → Option FunctionDecl := fun _ => none
  functionPointerTypedefTypeMap : String → Option QualType := fun _ => none
  namedCallbackAliasMap : Str → Option String := fun _ => none

/-- `handleProcCbDesc`: the calls it makes. -/
def handleProcCbDesc (getAsString : QualType → Str) (maps : StatMaps) (type : QualType)
    (nameHint typedefName : Option String) (desc : Desc) : List CollectCall :=
  match extractOverlayType type with
  | none => []
  | some type =>
      let origin := "ProcCbDesc<" ++ String.ofList (getTypeString getAsString type) ++ ">"
      ⟨type, origin, (nameHint.or typedefName).getD "", true, maps.namedCallbackAliasMap⟩ ::
        match (extractProcDesc desc).overlayType with
        | none => []
        | some overlay => [⟨overlay, origin ++ "@overlay", "", true, maps.namedCallbackAliasMap⟩]

/-- The callback of the matchers, on one declaration. -/
def matchCallback (getAsString : QualType → Str) (r : StatMaps × List CollectCall) (decl : Decl) :
    StatMaps × List CollectCall :=
  match decl with
  | .function name decl =>
      ({ r.1 with functionMap := Function.update r.1.functionMap name (some decl) }, r.2)
  | .typedef name type =>
      if type.isFunctionPointerType then
        ({ r.1 with
            functionPointerTypedefTypeMap :=
              Function.update r.1.functionPointerTypedefTypeMap name (some type)
            namedCallbackAliasMap := Function.update r.1.namedCallbackAliasMap
              (getTypeString getAsString type) (some name) }, r.2)
      else r
  | .procFnDesc function desc =>
      ({ r.1 with
          procFnDescDataMap := Function.update r.1.procFnDescDataMap function
            (some (extractProcDesc desc).overlayType) }, r.2)
  | .procCbDesc type nameHint typedefName desc =>
      (r.1, r.2 ++ handleProcCbDesc getAsString r.1 type nameHint typedefName desc)

/-- `matchAST`. -/
def matchAST (getAsString : QualType → Str) (tu : TranslationUnit) : StatMaps × List CollectCall :=
  tu.decls.foldl (matchCallback getAsString) ({}, [])

/-! ## The config -/

/-- The keys of the config sections that stat reads. -/
structure ThunkConfig where
  functions : ProcDirection → List String
  callbacks : List String

def sectionName : ProcDirection → String
  | .guestToHost => "Function"
  | .hostToGuest => "Guest Function"

/-- `collectConfigFunctionSection` for one name: the calls it makes. -/
def functionCalls (maps : StatMaps) (dir : ProcDirection) (name : String) : List CollectCall :=
  match maps.functionMap name with
  | none => []
  | some decl =>
      let origin := "Config[" ++ sectionName dir ++ "]:" ++ name
      ⟨.pointerTo decl.type, origin, "", false, maps.namedCallbackAliasMap⟩ ::
        match (maps.procFnDescDataMap name).bind id with
        | none => []
        | some overlay =>
            [⟨overlay, origin ++ "@overlay", "", false, maps.namedCallbackAliasMap⟩]

/-- `collectConfigCallbackSection` for one token. `&` stands in front of the name of a
function whose type is meant. -/
def callbackCalls (getAsString : QualType → Str) (maps : StatMaps) (token : String) :
    List CollectCall :=
  let origin := "Config[Callback]:" ++ token
  match token.toList with
  | [] => []
  | '&' :: name =>
      match maps.functionMap (String.ofList name) with
      | none => []
      | some decl =>
          let type := QualType.pointerTo decl.type
          let named := maps.namedCallbackAliasMap (getTypeString getAsString type)
          [⟨type, origin, named.getD ("PFN_AUTO_" ++ String.ofList name), true,
            maps.namedCallbackAliasMap⟩]
  | _ =>
      match maps.functionPointerTypedefTypeMap token with
      | none => []
      | some type => [⟨type, origin, token, true, maps.namedCallbackAliasMap⟩]

/-- All calls of `collectCallbackSignatures`, in order. -/
def collectCalls (getAsString : QualType → Str) (tu : TranslationUnit) (config : ThunkConfig) :
    List CollectCall :=
  let r := matchAST getAsString tu
  r.2 ++ (config.functions .guestToHost).flatMap (functionCalls r.1 .guestToHost) ++
    (config.functions .hostToGuest).flatMap (functionCalls r.1 .hostToGuest) ++
    config.callbacks.flatMap (callbackCalls getAsString r.1)

/-- The functions that the summary lists, and those it lists as missing. -/
def statFunctions (getAsString : QualType → Str) (tu : TranslationUnit) (config : ThunkConfig)
    (dir : ProcDirection) : Finset String × Finset String :=
  let maps := (matchAST getAsString tu).1
  let names := (config.functions dir).toFinset
  (names.filter fun name => (maps.functionMap name).isSome,
    names.filter fun name => (maps.functionMap name).isNone)

/-- The callbacks of the summary. -/
def stat (getAsString : QualType → Str) (tu : TranslationUnit) (config : ThunkConfig)
    (fuel : Nat) : Option (List CallbackInfo) :=
  (collectCalls getAsString tu config).foldlM
    (collectCallbackSignatures getAsString tu.records fuel) []

end Lorelei.TLC
