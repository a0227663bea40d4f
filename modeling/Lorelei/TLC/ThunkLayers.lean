import Lorelei.TLC.CodeTemplates
import Lorelei.TLC.LibCFormat

/-!
# The layers that a builder makes

What the begin hooks of the default builder and of the builders for formatted calls put
into the three layers of a proc. A document is generated for one mode and gets one half of
the text: the sender's layers if the calls of the proc start on its side, else the
receiver's.
-/

namespace Lorelei.TLC

open Support

variable (getAsString : QualType → Str)

/-- The document of this mode emits the sender's side. -/
def isSender (mode : Mode) (direction : ProcDirection) : Bool :=
  match direction with
  | .guestToHost => mode = .guest
  | .hostToGuest => mode = .host

/-- The signature with a leading `void *callback`. -/
def withCallback (info : FunctionInfo) : FunctionInfo :=
  { info with arguments := (pVoidType, callbackName) :: info.arguments }

namespace ProcSnippet

variable (proc : ProcSnippet)

/-- The signature between the layers: callbacks carry the function they stand for. -/
def layerInfo (info : FunctionInfo) : FunctionInfo :=
  if proc.isFunction then info else withCallback info

def packedInfo : FunctionInfo :=
  if proc.isFunction then FI_packedFunctionInfo else FI_packedCallbackInfo

/-- The lookup of the function that a callback layer stands for. -/
def callbackLookup : List Line :=
  if proc.isFunction then [] else SRC_getCallback (proc.direction ≠ .guestToHost)

/-- A layer that calls the layer of the next phase with its own parameters. -/
def passThrough (signature info : FunctionInfo) (phase : ProcPhase) : ProcSource where
  functionInfo := some signature
  body := {
    prolog := SRC_emptyReturnDecl getAsString info
    center := SRC_callListAssign signature phase retName
    epilog := SRC_returnRet info }

/-- The Caller of the sender: it packs the arguments. -/
def packingCaller (signature info : FunctionInfo) : ProcSource where
  functionInfo := some signature
  body := {
    prolog := SRC_emptyReturnDecl getAsString info ++ SRC_argPtrListDecl info
    center := [.execInvoke (if proc.isFunction then none else some callbackName)
      (if info.returnType.isVoidType then none else some retName)]
    epilog := SRC_returnRet info }

/-- The Entry of the receiver: it takes the arguments out of the pack. -/
def unpackingEntry (signature info : FunctionInfo) : ProcSource where
  functionInfo := some proc.packedInfo
  body := {
    prolog := SRC_argPtrListExtractDecl getAsString info ++ SRC_retExtractDecl getAsString info
    center := SRC_callListAssign signature .adapt retRefName }

end ProcSnippet

/-! ## The default builder -/

namespace DefaultBuilder

variable (proc : ProcSnippet) (view : FunctionTypeView)

def FI : FunctionInfo := .ofView view

/-- `FI`, or `CFI` for a callback. -/
def LFI : FunctionInfo := proc.layerInfo (FI view)

def sender : ProcSources where
  entry := {
    functionInfo := some (FI view)
    body := {
      prolog := SRC_emptyReturnDecl getAsString (FI view) ++ proc.callbackLookup
      center := SRC_callListAssign (LFI proc view) .adapt retName
      epilog := SRC_returnRet (FI view) } }
  adapt := ProcSnippet.passThrough getAsString (LFI proc view) (FI view) .caller
  caller := proc.packingCaller getAsString (LFI proc view) (FI view)

def receiver : ProcSources where
  entry := proc.unpackingEntry getAsString (LFI proc view) (FI view)
  adapt := ProcSnippet.passThrough getAsString (LFI proc view) (FI view) .caller
  caller := ProcSnippet.passThrough getAsString (LFI proc view) (FI view) .exec

/-- `DefaultBuilderPass::beginHandleProc`. -/
def beginHandleProc (mode : Mode) : ProcSources :=
  if isSender mode proc.direction then sender getAsString proc view
  else receiver getAsString proc view

end DefaultBuilder

/-! ## The builders for formatted calls -/

namespace LibCFormatPass

variable (self : LibCFormatPass) (message : LibCFormatMessage) (proc : ProcSnippet)
  (view : FunctionTypeView)

def FI : FunctionInfo := .ofView view

/-- The signature with the variadic tail replaced by the packed one. -/
def NFI : FunctionInfo where
  returnType := view.returnType
  arguments := (if self.hasVAList then (FI view).arguments.dropLast else (FI view).arguments) ++
    [(cvargEntryPtrType, vargsName)]
  isVariadic := if self.hasVAList then view.isVariadic else false

/-- `NFI`, or `CNFI` for a callback. -/
def LNFI : FunctionInfo := proc.layerInfo (self.NFI view)

def formatStyle : Variadic.FormatStyle := if self.scanf then .scanF else .printF

def callHelper : CallHelper := if self.hasVAList then .vcall else .call

/-- The names and lines that depend on the positions of the message. -/
structure Positions where
  formatName : Str
  lastArgToken : Str
  extract : Line
  fixedArgEntries : List Line

/-- `getExtractStatment`, between `va_start` and `va_end` without a `va_list`. -/
def extractLine (formatName lastArgToken : Str) : Option Line :=
  if self.hasVAList then
    ((FI view).argumentName (message.vargIdx - 1)).map (.extract self.formatStyle formatName)
  else some (.vaStartExtract lastArgToken self.formatStyle formatName)

/-- `none` if a position is outside of the arguments. -/
def positions : Option Positions := do
  let formatName ← (FI view).argumentName (message.fmtIdx - 1)
  let lastArgToken ← (FI view).argumentName (message.vargIdx - 2)
  let fixedArgEntries ← SRC_fixedArgEntriesDecl (FI view) (message.vargIdx - 1)
  let extract ← self.extractLine message view formatName lastArgToken
  return { formatName, lastArgToken, extract, fixedArgEntries }

def sender (pos : Positions) : ProcSources where
  entry := {
    functionInfo := some (FI view)
    body := {
      prolog := SRC_emptyReturnDecl getAsString (FI view) ++ proc.callbackLookup ++ [.vargsDecl]
      center := pos.extract ::
        SRC_callListAssign (self.LNFI proc view) .adapt retName
      epilog := SRC_returnRet (FI view) } }
  adapt := ProcSnippet.passThrough getAsString (self.LNFI proc view) (FI view)
    .caller
  caller := proc.packingCaller getAsString (self.LNFI proc view)
    (self.NFI view)

def receiver (pos : Positions) : ProcSources where
  entry := proc.unpackingEntry getAsString (self.LNFI proc view)
    (self.NFI view)
  adapt := ProcSnippet.passThrough getAsString (self.LNFI proc view) (FI view)
    .caller
  caller := {
    functionInfo := some (self.LNFI proc view)
    body := {
      prolog := SRC_emptyReturnDecl getAsString (FI view) ++ pos.fixedArgEntries ++
        [.vretDecl, .vretInit (if view.returnType.isVoidType then none else some retName)]
      center := .callHelper self.callHelper (if proc.isFunction then none else some callbackName) ::
        if view.returnType.isVoidType then []
        else [.vretValueAssign (getTypeString getAsString view.returnType)]
      epilog := SRC_returnRet (FI view) } }

/-- `LibCFormatPass::beginHandleProc`. -/
def beginHandleProc (mode : Mode) : Option ProcSources :=
  (self.positions message view).map fun pos =>
    if isSender mode proc.direction then sender getAsString self proc view pos
    else receiver getAsString self proc view pos

end LibCFormatPass

end Lorelei.TLC
