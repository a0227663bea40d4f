import Lorelei.TLC.FormatIdentity

/-!
# Statements on the arguments of the Adapt layer

The passes that put statements on arguments into the Adapt layer of a proc: the filters for
the types that a manifest names, and the conversion of a looked up address. Both find the
argument by its position in the real signature and take the name at this position from the
signature that a builder gave the layer.
-/

namespace Lorelei.TLC

open Support Environment

/-! ## Type filters -/

structure TypeFilterMessage where
  filteredArgIndexes : List Nat
  filterRet : Bool
deriving DecidableEq

/-- The types that `ProcArgFilter` and `ProcReturnFilter` are specialized for. -/
structure TypeFilterPass where
  procArgFilters : List QualType
  procRetFilters : List QualType

section Passes

variable (getAsString : QualType → Str) (proc : ProcSnippet) (real : FunctionTypeView)

namespace TypeFilterPass

variable (pass : TypeFilterPass)

/-- Filters are found by the text of their type. -/
def isFiltered (filters : List QualType) (t : QualType) : Bool :=
  getTypeString getAsString t ∈ filters.map (getTypeString getAsString)

def filteredArgIndexes : List Nat :=
  real.argTypes.zipIdx.filterMap fun (t, i) =>
    if isFiltered getAsString pass.procArgFilters t then some i else none

/-- `TypeFilterPass::testProc`. -/
def testProc : Option TypeFilterMessage :=
  proc.realFunctionTypeView.bind fun real =>
    let filteredArgIndexes := pass.filteredArgIndexes getAsString real
    let filterRet := isFiltered getAsString pass.procRetFilters real.returnType
    if filteredArgIndexes = [] ∧ filterRet = false then none
    else some { filteredArgIndexes, filterRet }

/-- The signature that the names are taken from. -/
def nameInfo (adapt : ProcSource) : FunctionInfo := adapt.functionInfo.getD (.ofView real)

/-- `getArgFilterStatement`. -/
def argFilterStatement (info : FunctionInfo) (idx : Nat) : Option GuardLine :=
  real.argTypes[idx]?.bind fun t => (info.argumentName idx).map fun name =>
    .argFilter (getTypeString getAsString t) idx proc.kind proc.direction name (SRC_callList info)

/-- `getRetFilterStatement`. -/
def retFilterStatement (info : FunctionInfo) : GuardLine :=
  .retFilter (getTypeString getAsString real.returnType) proc.kind proc.direction
    (SRC_callList info)

/-- The lines go to the sender's Adapt layer and to the receiver's; a document has one of
them. -/
def pushed (mode : Mode) (lines : List GuardLine) : List GuardLine :=
  lines.flatMap fun line => (if isSender mode proc.direction then [line] else []) ++
    if isSender mode proc.direction then [] else [line]

/-- `TypeFilterPass::beginHandleProc`, on the Adapt layer. -/
def beginHandleProc (mode : Mode) (message : TypeFilterMessage) (adapt : ProcSource) :
    Option ProcSource :=
  let info := nameInfo real adapt
  (message.filteredArgIndexes.mapM (argFilterStatement getAsString proc real info)).map
    fun statements => { adapt with body := { adapt.body with
      forward := adapt.body.forward ++ pushed proc mode statements
      backward := adapt.body.backward ++
        if message.filterRet then pushed proc mode [retFilterStatement getAsString proc real info]
        else [] } }

end TypeFilterPass

/-! ## Looked up addresses -/

namespace GetProcAddressPass

/-- The name of the symbol is the last parameter, if that is a string. -/
def testSignature : Option Int :=
  proc.realFunctionTypeView.bind fun view =>
    view.argTypes.getLast?.bind fun maybeNameType =>
      if maybeNameType.isCharPointerType then some view.argTypes.length else none

/-- `GetProcAddressPass::testProc`: the position of the name, counted from 1. -/
def testProc : Option Int :=
  match integralArgumentsInPass 1 proc false ID_GetProcAddress with
  | some [nameIndex] => if nameIndex < 0 then testSignature proc else some nameIndex
  | _ => if "GetProcAddress".toList <:+: proc.name then testSignature proc else none

/-- The layers that the address is converted in. -/
def isConverted (mode : Mode) : Bool :=
  !(proc.kind ≠ .function && proc.direction ≠ .guestToHost) && mode = .guest

/-- `GetProcAddressPass::beginHandleProc`, on the Adapt layer; `none` if the position is
outside of its signature. -/
def beginHandleProc (mode : Mode) (nameIndex : Int) (adapt : ProcSource) : Option ProcSource :=
  if isConverted proc mode then
    (adapt.functionInfo.bind fun info => info.argumentName (nameIndex - 1)).map fun name =>
      { adapt with body := { adapt.body with
        backward := adapt.body.backward ++ [.convertHostProcAddress name] } }
  else some adapt

end GetProcAddressPass

end Passes

end Lorelei.TLC
