import Lorelei.TLC.Pass

/-!
# The builders for formatted calls

When the printf, vprintf, scanf and vscanf passes want a proc: by the arguments of a
descriptor, by the format attribute of the declaration, or by the end of the name
together with the parameters that the signature ends in.
-/

namespace Lorelei.TLC

open Support

/-- The positions of the format string and of the variadic part, counted from 1. -/
structure LibCFormatMessage where
  fmtIdx : Int
  vargIdx : Int
deriving DecidableEq, Repr

/-- What the four passes differ in. -/
structure LibCFormatPass where
  id : Int
  scanf : Bool
  hasVAList : Bool
deriving DecidableEq, Repr

def PrintFPass : LibCFormatPass := ⟨ID_printf, false, false⟩
def VPrintFPass : LibCFormatPass := ⟨ID_vprintf, false, true⟩
def ScanFPass : LibCFormatPass := ⟨ID_scanf, true, false⟩
def VScanFPass : LibCFormatPass := ⟨ID_vscanf, true, true⟩

namespace LibCFormatPass

variable (getAsString : QualType → Str) (self : LibCFormatPass) (proc : ProcSnippet)

def styleName : String := if self.scanf then "scanf" else "printf"

/-- The format attribute of a declared function that no overlay replaces. Its position of
the variadic arguments is 0 for a `va_list`. -/
def testFormatAttr : Option LibCFormatMessage := do
  let attr ← if proc.isFunction && proc.overlayType.isNone then
      proc.functionDecl.bind FunctionDecl.formatAttr
    else none
  if attr.type ≠ self.styleName then none
  else if !self.hasVAList && 0 < attr.formatIdx && 0 < attr.firstArg then
    some ⟨attr.formatIdx, attr.firstArg⟩
  else if self.hasVAList && 0 < attr.formatIdx && attr.firstArg = 0 then
    some ⟨attr.formatIdx, attr.formatIdx + 1⟩
  else none

/-- Whether the last parameter is a `va_list`, by its spelling or by the typedefs that the
declaration writes it with. -/
def isVAList (view : FunctionTypeView) (lastType : QualType) : Bool :=
  getTypeString getAsString lastType = "va_list".toList ||
    match proc.functionDecl with
    | none => false
    | some decl => decl.paramTypedefs.length = view.argTypes.length &&
        (decl.paramTypedefs.getLast?.map isVaListType).getD false

/-- The parameters that the signature ends in. -/
def testSignature : Option LibCFormatMessage := do
  let view ← proc.realFunctionTypeView
  let size := view.argTypes.length
  let lastType ← view.argTypes.getLast?
  if self.hasVAList then
    if !view.isVariadic && 1 < size && isVAList getAsString proc view lastType then
      let maybeFmtParam ← view.argTypes[size - 2]?
      if maybeFmtParam.isCharPointerType then some ⟨size - 1, size⟩ else none
    else none
  else if view.isVariadic && lastType.isCharPointerType then some ⟨size, size + 1⟩
  else none

/-- The tests behind the descriptor. -/
def testDeclaration (passWithDefaultArgs : Bool) : Option LibCFormatMessage :=
  (self.testFormatAttr proc).or
    (if passWithDefaultArgs || self.styleName.toList.isSuffixOf proc.name then
      self.testSignature getAsString proc
    else none)

/-- `LibCFormatPass::testProc`: the message, if the pass wants the proc. -/
def testProc : Option LibCFormatMessage :=
  match integralArgumentsInPass 2 proc true self.id with
  | some [fmtIdx, vargIdx] =>
      if fmtIdx < 0 || vargIdx < 0 then self.testDeclaration getAsString proc true
      else some ⟨fmtIdx, vargIdx⟩
  | _ => self.testDeclaration getAsString proc false

end LibCFormatPass

end Lorelei.TLC
