import Lorelei.ClangExtras.FunctionInfo
import Lorelei.TLC.ProcSnippet
import Lorelei.Variadic.Printf

/-!
# The text of a thunk layer

The lines that the passes put into the layers of a proc, and the templates that make them.
A line stands for the text in its comment, with the types as the text spells them and the
variables under their names.
-/

namespace Lorelei.TLC

open Support

/-- `DocumentContext::Mode`. -/
inductive Mode where
  | guest | host
deriving DecidableEq, Repr

/-- `ProcPhase`. -/
inductive ProcPhase where
  | entry | adapt | caller | exec
deriving DecidableEq, Repr

/-! ## Lines -/

/-- The two helpers that call with boxed arguments. -/
inductive CallHelper where
  | call | vcall
deriving DecidableEq, Repr

/-- The statements of the builders. A layer of the proc is named by its phase. -/
inductive Line where
  /-- `type ret;` -/
  | retDecl (type : Str)
  /-- `void *callback = LORE_THUNK_LAST_GCB;`, or `…_HCB`. -/
  | getCallback (guest : Bool)
  /-- `lval = Proc<…, phase>::invoke(args…);` -/
  | callListAssign (lval : Option Str) (phase : ProcPhase) (args : List Str)
  /-- `void *args[] = { (void *) &arg1, … };` -/
  | argPtrListDecl (names : List Str)
  /-- `Proc<…, Exec>::invoke([callback,] args, &ret, nullptr);`, with `nullptr` if there is
  no `ret`. -/
  | execInvoke (callback : Option Str) (ret : Option Str)
  /-- `auto &name = *(type) args[i];` -/
  | argExtractDecl (name type : Str) (i : Nat)
  /-- `auto &ret_ref = *(type) ret;` -/
  | retExtractDecl (type : Str)
  /-- `CVargEntry vargs[LORE_THUNK_VARG_MAX];` -/
  | vargsDecl
  /-- `lore::VariadicAdaptor::extract(lore::VariadicAdaptor::style, fmt, list, vargs);` -/
  | extract (style : Variadic.FormatStyle) (fmt list : Str)
  /-- The same with a list `ap` between `va_start(ap, last);` and `va_end(ap);`. -/
  | vaStartExtract (last : Str) (style : Variadic.FormatStyle) (fmt : Str)
  /-- `CVargEntry argv1[] = { CVargGet(arg1), … };` -/
  | fixedArgEntriesDecl (names : List Str)
  /-- `CVargEntry vret;` -/
  | vretDecl
  /-- `vret.type = CVargTypeID(ret);`, or `= 0` without `ret`. -/
  | vretInit (ret : Option Str)
  /-- `lore::VariadicAdaptor::helper(target, sizeof(argv1) / sizeof(argv1[0]), argv1, -1,
  vargs, &vret);`, where the target is a variable or what `Exec::get()` returns. -/
  | callHelper (helper : CallHelper) (target : Option Str)
  /-- `ret = CVargValue(type, vret);` -/
  | vretValueAssign (type : Str)
  /-- `return ret;` -/
  | returnRet
deriving DecidableEq, Repr

/-- The statements that the other passes inject around a call. -/
inductive GuardLine where
  /-- `ProcArgFilter<type>::filter<desc, idx, kind, direction>(name, ProcArgContext(args…));` -/
  | argFilter (type : Str) (idx : Nat) (kind : ProcKind) (direction : ProcDirection)
      (name : Str) (context : List Str)
  /-- `ProcReturnFilter<type>::filter<desc, kind, direction>(ret, ProcArgContext(args…));` -/
  | retFilter (type : Str) (kind : ProcKind) (direction : ProcDirection) (context : List Str)
  /-- `ret = (decltype(ret)) mod::GuestClient::convertHostProcAddress((const char *) name,
  (void *) ret);` -/
  | convertHostProcAddress (name : Str)
deriving DecidableEq, Repr

/-- `ProcSnippet::FunctionBodySource`. -/
structure FunctionBodySource where
  prolog : List Line := []
  forward : List GuardLine := []
  center : List Line := []
  backward : List GuardLine := []
  epilog : List Line := []

/-- `ProcSnippet::ProcSource`. No signature is a null return type. -/
structure ProcSource where
  functionInfo : Option FunctionInfo := none
  body : FunctionBodySource := {}

/-- `ProcSnippet::m_sources`. -/
structure ProcSources where
  entry : ProcSource := {}
  adapt : ProcSource := {}
  caller : ProcSource := {}

/-! ## Templates -/

section Templates

variable (getAsString : QualType → Str)

abbrev argsName : Str := "args".toList
abbrev apName : Str := "ap".toList
abbrev callbackName : Str := "callback".toList
abbrev metadataName : Str := "metadata".toList
abbrev retName : Str := "ret".toList
abbrev retRefName : Str := "ret_ref".toList
abbrev vargsName : Str := "vargs".toList

def pVoidType : QualType := .pointerTo .void

/-- `m_cvargEntryPtrType`: the pointer to the type that the header declares. -/
def cvargEntryPtrType : QualType := .pointerTo (.tag {} .struct "CVargEntry")

def FI_packedFunctionInfo : FunctionInfo where
  returnType := .void
  arguments := [(.pointerTo pVoidType, argsName), (pVoidType, retName),
    (pVoidType, metadataName)]

def FI_packedCallbackInfo : FunctionInfo where
  returnType := .void
  arguments := [(pVoidType, callbackName), (.pointerTo pVoidType, argsName),
    (pVoidType, retName), (pVoidType, metadataName)]

def SRC_emptyReturnDecl (info : FunctionInfo) : List Line :=
  if info.returnType.isVoidType then []
  else [.retDecl (getTypeStringDecompound getAsString info.returnType)]

def SRC_getCallback (guest : Bool) : List Line := [.getCallback guest]

def SRC_callList (info : FunctionInfo) : List Str := info.argNames

def SRC_callListAssign (info : FunctionInfo) (phase : ProcPhase) (lval : Str) : List Line :=
  [.callListAssign (if info.returnType.isVoidType then none else some lval) phase
    (SRC_callList info)]

def SRC_argPtrListDecl (info : FunctionInfo) : List Line := [.argPtrListDecl info.argNames]

def SRC_returnRet (info : FunctionInfo) : List Line :=
  if info.returnType.isVoidType then [] else [.returnRet]

def SRC_argPtrListExtractDecl (info : FunctionInfo) : List Line :=
  info.arguments.zipIdx.map fun (arg, i) =>
    .argExtractDecl arg.2 (getTypeString getAsString (.pointerTo arg.1)) i

def SRC_retExtractDecl (info : FunctionInfo) : List Line :=
  if info.returnType.isVoidType then []
  else [.retExtractDecl (getTypeString getAsString (.pointerTo info.returnType))]

/-- `SRC_fixedArgEntriesDecl`; `none` if it reads past the arguments. -/
def SRC_fixedArgEntriesDecl (info : FunctionInfo) (fixedCount : Int) : Option (List Line) :=
  if fixedCount ≤ info.argNames.length then
    some [.fixedArgEntriesDecl (info.argNames.take fixedCount.toNat)]
  else none

end Templates

end Lorelei.TLC
