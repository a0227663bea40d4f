import Lorelei.TLC.CallbackTree
import Lorelei.TLC.Requested

/-!
# The procs that `TLC generate` instruments

The generate command reads the summary that stat has saved and the same declarations. Its
procs are the requested functions and the callbacks of the bridge translation unit, each
with its descriptor. The callback substituter makes a tree for each of them and looks up
every function type of the tree among the callbacks.
-/

namespace Lorelei.TLC

open Support

/-- What `beginProcessDocument` collects of functions and descriptors. -/
structure DocMaps where
  functionByName : String → Option FunctionDecl := fun _ => none
  functionDescByName : String → Option Desc := fun _ => none
  callbackDescBySignature : Str → Option Desc := fun _ => none

/-- The callback of the matchers, on one declaration. Typedefs count only in the bridge. -/
def collectDecl (getAsString : QualType → Str) (maps : DocMaps) : Decl → DocMaps
  | .function name decl =>
      { maps with functionByName := Function.update maps.functionByName name (some decl) }
  | .typedef _ _ => maps
  | .procFnDesc function desc =>
      { maps with
        functionDescByName :=
          Function.update maps.functionDescByName function (some (extractProcDesc desc)) }
  | .procCbDesc type _ _ desc =>
      match extractOverlayType type with
      | none => maps
      | some type =>
          { maps with
            callbackDescBySignature :=
              Function.update maps.callbackDescBySignature (getTypeString getAsString type)
                (some (extractProcDesc desc)) }

def docMaps (getAsString : QualType → Str) (tu : TranslationUnit) : DocMaps :=
  tu.decls.foldl (collectDecl getAsString) {}

/-- The functions that the declarations give, and the signatures of the summary that the
compiler reads in the bridge. -/
def unitHeaders (tu : TranslationUnit) (readType : String → Option QualType)
    (summary : ManifestSummary) : Headers where
  functions := (tu.decls.filterMap fun
    | .function name _ => some name
    | _ => none).toFinset
  signatures := (summary.callbacks.map Prod.fst).toFinset.filter fun signature =>
    (readType signature).isSome

section Procs

variable (getAsString : QualType → Str) (readType : String → Option QualType)
  (tu : TranslationUnit) (summary : ManifestSummary)

/-- The proc of a row. -/
def procSnippet (kind : ProcKind) (dir : ProcDirection) (p : Proc) : Option ProcSnippet :=
  let maps := docMaps getAsString tu
  match kind with
  | .function => (maps.functionByName p.key).map fun decl =>
      { kind := .function
        direction := dir
        name := p.name.toList
        functionDecl := some decl
        functionPointerType := .pointerTo decl.type
        desc := maps.functionDescByName p.key }
  | .callback => (readType p.key).map fun type =>
      { kind := .callback
        direction := dir
        name := p.name.toList
        functionPointerType := type
        desc := maps.callbackDescBySignature p.key.toList }

/-- All procs of the document, in the order of the pass loops. -/
def procSnippets : List ProcSnippet :=
  [ProcKind.function, .callback].flatMap fun kind =>
    [ProcDirection.guestToHost, .hostToGuest].flatMap fun dir =>
      (procs summary (unitHeaders tu readType summary) kind dir).filterMap
        (procSnippet getAsString readType tu kind dir)

/-- The trees that the callback substituter makes of the procs, one after the other. -/
def argumentTrees (fuel : Nat) : List ProcSnippet → TreeCache → Option (List CallbackTree)
  | [], _ => some []
  | proc :: procs, cache =>
      let argTypes := (proc.realFunctionTypeView.map FunctionTypeView.argTypes).getD []
      (buildArgumentTree getAsString tu.records fuel cache argTypes).bind fun (cache, tree) =>
        (argumentTrees fuel procs cache).map (tree :: ·)

/-- `resolveAlias`. -/
def resolveAlias (callee : QualType) : Option String :=
  (callbackTypes summary (unitHeaders tu readType summary)).lookup
    (String.ofList (getTypeString getAsString (.pointerTo callee)))

end Procs

end Lorelei.TLC
