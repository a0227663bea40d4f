import Lorelei.ClangExtras.QualType
import Lorelei.TLC.Requested

/-!
# The procs of a document

What a pass reads of a proc: the declaration or the callback type it stands for, its
name, and what its descriptor says. `integralArgumentsInPass` reads the arguments of the
pass tag a descriptor names.
-/

namespace Lorelei.TLC

open Support

/-! ## Pass ids -/

abbrev ID_DefaultBuilder : Int := 0
abbrev ID_printf : Int := 1
abbrev ID_vprintf : Int := 2
abbrev ID_scanf : Int := 3
abbrev ID_vscanf : Int := 4
abbrev ID_CallbackSubstituter : Int := 5
abbrev ID_TypeFilter : Int := 6
abbrev ID_GetProcAddress : Int := 7

/-! ## Descriptors -/

/-- The record type of a pass tag. It has template arguments if it is a specialization,
and a value for each of them that is integral. -/
structure PassTag where
  templateArgs : Option (List (Option Int))
deriving DecidableEq, Repr

structure PassInfo where
  id : Int
  type : PassTag
deriving DecidableEq, Repr

/-- `ProcSnippet::Desc`. -/
structure Desc where
  overlayType : Option QualType := none
  builderPass : Option PassInfo := none
  passes : List PassInfo := []

/-! ## Declarations -/

/-- `clang::FormatAttr`. -/
structure FormatAttr where
  type : String
  formatIdx : Nat
  firstArg : Nat
deriving DecidableEq, Repr

/-- A function declaration: its canonical type, the typedefs each parameter is written
with, and its first format attribute. -/
structure FunctionDecl where
  type : QualType
  paramTypedefs : List (List TypedefDecl) := []
  formatAttr : Option FormatAttr := none

/-- `ProcSnippet`, as far as the passes read it. -/
structure ProcSnippet where
  kind : ProcKind
  direction : ProcDirection
  name : Str
  functionDecl : Option FunctionDecl := none
  /-- The pointer to the declared function, or the callback's own type. -/
  functionPointerType : QualType
  desc : Option Desc := none

namespace ProcSnippet

variable (proc : ProcSnippet)

def isFunction : Bool := proc.kind = .function

def isCallback : Bool := proc.kind = .callback

def overlayType : Option QualType := proc.desc.bind Desc.overlayType

def builderPass : Option PassInfo := proc.desc.bind Desc.builderPass

/-- An overlay takes the place of the declared type. -/
def realFunctionPointerType : QualType := proc.overlayType.getD proc.functionPointerType

def realFunctionTypeView : Option FunctionTypeView :=
  FunctionTypeView.ofType proc.realFunctionPointerType

end ProcSnippet

/-! ## Arguments of pass tags -/

/-- `PASS_getIntegralArgumentsInPass`: the arguments of the tag that the descriptor gives
for the pass, if there are `count` of them and all are integral. -/
def integralArgumentsInPass (count : Nat) (proc : ProcSnippet) (isBuilder : Bool) (id : Int) :
    Option (List Int) := do
  let desc ← proc.desc
  let info ← if isBuilder then desc.builderPass.filter fun info => info.id = id
    else desc.passes.find? fun info => info.id = id
  let args ← info.type.templateArgs
  if args.length = count then args.mapM (fun arg => arg) else none

end Lorelei.TLC
