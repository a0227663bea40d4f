import Lorelei.Lib.Environment
import Lorelei.TLC.ThunkLayers
import Lorelei.Variadic.Adaptor

/-!
# Running the layers of a proc

What the generated text does once a compiler has read it. How a compiler reads the text of
a type is its own business and a parameter, and so is what `extract` records and what the
owner of a function answers. A pointer into another frame stands for the object it points
at. There is no outcome where the text does not compile, where an object is read at another
type than its own, or where `va_start` is not given the last parameter.
-/

namespace Lorelei.TLC

open Support

/-! ## Compilers -/

/-- What the text relies on of the compiler of one side: how it spells types for the
generator and reads them back, which type an enumeration is stored at, and the type of a `va_list`
parameter. -/
structure Compiler where
  getAsString : QualType → Str
  readType : Str → Option QualType
  enumType : String → BuiltinKind
  vaListType : QualType

/-- The adjustment of a parameter's type. -/
def decayed : QualType → QualType
  | .array element _ => .pointerTo element
  | t => if t.isFunctionType then .pointerTo t else t

def isConst : QualType → Bool
  | .builtin quals _ | .pointer quals _ | .tag quals _ _ => quals.const
  | _ => false

/-- A variable of this type can be declared without a value, assigned to and returned. -/
def isReturnable (t : QualType) : Bool := !(isConst t || t.isArrayType || t.isFunctionType)

namespace Compiler

variable (cc : Compiler)

/-- The type of a parameter that is declared with the text of this one. -/
def paramType (t : QualType) : Option QualType :=
  (cc.readType (getTypeStringDecompound cc.getAsString t)).map decayed

/-- The type of a variable that is declared with this text. -/
def varType (text : Str) : Option QualType := (cc.readType text).filter isReturnable

/-- The type that a cast to this text points at. -/
def castType (text : Str) : Option QualType := (cc.readType text).bind QualType.getPointeeType

end Compiler

/-! ## Boxes -/

def ctypeOf : BuiltinKind → Option Variadic.CType
  | .char => some .char
  | .unsignedChar => some .uchar
  | .int => some .int
  | .unsignedInt => some .uint
  | .long => some .long
  | .unsignedLong => some .ulong
  | .double => some .double
  | .other name =>
      if name = "short" then some .short
      else if name = "unsigned short" then some .ushort
      else if name = "long long" then some .longlong
      else if name = "unsigned long long" then some .ulonglong
      else if name = "float" then some .float
      else none
  | .void | .bool | .signedChar => none

/-- The type that `CVargGet` boxes a value at. It does not compile for the types that no
branch of `_CVargTypeID` names, pointers apart. -/
def boxType (cc : Compiler) : QualType → Option Variadic.CType
  | .builtin _ kind => ctypeOf kind
  | .tag _ .enum name => ctypeOf (cc.enumType name)
  | .pointer _ _ => some .pointer
  | _ => none

/-- The field of the union takes every value of the type. -/
def fits (c : Variadic.CType) : Bool := (Variadic.cvargValueRef c).width = c.width

/-- The type that `CVargTypeID` gives a variable. -/
def typeID (cc : Compiler) (t : QualType) : Variadic.CVargType :=
  ((boxType cc t).map Variadic.cvargTypeID).getD .pointer

/-- The assignment of a field of a `CVargEntry`, chosen for a type, to a variable of that
type. An enumeration does not take an integer and of the pointers only `void *` takes one
to void; a `bool` takes every pointer, but another value. -/
def unboxed {α : Type} (t : QualType) (held : Option α) : Option (Option α) :=
  match t with
  | .builtin _ .bool => some none
  | .builtin _ kind => (ctypeOf kind).map fun c => if fits c then held else none
  | .pointer _ pointee => if pointee.isVoidType then some held else none
  | _ => none

/-! ## Frames -/

/-- An object; it has no value before the first assignment. -/
structure Obj (V : Type) where
  type : QualType
  val : Option V

/-- An entry that `CVargGet` made; a field that is too narrow does not hold the value. -/
structure BoxedArg (V : Type) where
  type : Variadic.CVargType
  val : Option V

/-- A call of the function that a proc stands for. -/
inductive Call (V : Type) where
  | direct (callback : Option V) (args : List (Option V)) (tail : Option V)
  | boxed (helper : CallHelper) (callback : Option V) (fixed : List (BoxedArg V))
      (vargs : Option V) (ret : Variadic.CVargType)

/-- The value of an object that is passed as a `const char *`. -/
def Obj.formatString {V : Type} (o : Obj V) : Option V :=
  match o.type with
  | .pointer _ (.builtin quals .char) => if quals.volatile then none else o.val
  | _ => none

structure Outcome (V : Type) where
  calls : List (Call V)
  ret : Option (Obj V)

structure Frame (V : Type) where
  vars : Str → Option (Obj V)
  params : List Str := []
  tail : Option V := none
  /-- What the entries of `args` point at. -/
  args : List (Obj V) := []
  /-- What `ret` points at. -/
  pointee : Option (Obj V) := none
  argv1 : List (BoxedArg V) := []
  vret : Option (Variadic.CVargType × Option V) := none
  calls : List (Call V) := []
  result : Option (Obj V) := none

/-- What the layers call out to: what `extract` records of the arguments that a format
string and a list stand for, and what the function behind the proc returns. -/
structure Runtime (V : Type) where
  extract : Variadic.FormatStyle → V → V → V
  owner : Call V → V

section Exec

variable {V : Type}

def cvargGet (cc : Compiler) (o : Obj V) : Option (BoxedArg V) :=
  (boxType cc o.type).map fun c => ⟨Variadic.cvargTypeID c, if fits c then o.val else none⟩

namespace Frame

def declare (f : Frame V) (name : Str) (o : Obj V) : Frame V :=
  { f with vars := Function.update f.vars name (some o) }

/-- An assignment to a variable of the value's type. -/
def assign (f : Frame V) (name : Str) (r : Obj V) : Option (Frame V) := do
  let o ← f.vars name
  if o.type = r.type then return f.declare name r else none

def outcome (f : Frame V) : Outcome V := ⟨f.calls, f.result⟩

/-- The calls of a packed layer and the object behind its `ret`. -/
def packedOutcome (f : Frame V) : List (Call V) × Option (Obj V) :=
  (f.calls, (f.vars retRefName).or f.pointee)

end Frame

/-- The calls that leave a layer: into the next layer, and across to the other side with
the packed arguments and the object that the return value goes to. -/
structure Linkage (V : Type) where
  next : ProcPhase → List (Obj V) → Option (Outcome V)
  cross : Option (Obj V) → List (Obj V) → Option (Obj V) →
    Option (List (Call V) × Option (Obj V))

variable (cc : Compiler) (rt : Runtime V) (lastCallback : V) (link : Linkage V)

/-- One line of a layer. -/
def exec : Line → Frame V → Option (Frame V)
  | .retDecl type, f => do
      let t ← cc.varType type
      return f.declare retName ⟨t, none⟩
  | .getCallback _, f => some (f.declare callbackName ⟨pVoidType, some lastCallback⟩)
  | .callListAssign lval phase args, f => do
      let objs ← args.mapM f.vars
      let out ← link.next phase objs
      let f := { f with calls := f.calls ++ out.calls }
      match lval with
      | none => return f
      | some name => out.ret.bind (f.assign name)
  | .argPtrListDecl names, f => do
      let objs ← names.mapM f.vars
      return { f with args := objs }
  | .execInvoke callback ret, f => do
      let callback ← callback.mapM f.vars
      let ret ← ret.mapM f.vars
      let (calls, ret) ← link.cross callback f.args ret
      let f := { f with calls := f.calls ++ calls }
      match ret with
      | none => return f
      | some o => f.assign retName o
  | .argExtractDecl name type i, f => do
      let t ← cc.castType type
      let o ← f.args[i]?
      if o.type = t then return f.declare name o else none
  | .retExtractDecl type, f => do
      let t ← cc.castType type
      let o ← f.pointee
      if o.type = t then return f.declare retRefName o else none
  -- an array is used as the pointer that it decays to
  | .vargsDecl, f => some (f.declare vargsName ⟨cvargEntryPtrType, none⟩)
  | .extract style fmt list, f => do
      let fmt ← (f.vars fmt).bind Obj.formatString
      let ap ← f.vars list
      if ap.type = cc.vaListType then
        f.assign vargsName ⟨cvargEntryPtrType, ap.val.map (rt.extract style fmt)⟩
      else none
  | .vaStartExtract last style fmt, f => do
      let fmt ← (f.vars fmt).bind Obj.formatString
      let ap ← f.tail
      if f.params.getLast? = some last then
        f.assign vargsName ⟨cvargEntryPtrType, some (rt.extract style fmt ap)⟩
      else none
  | .fixedArgEntriesDecl names, f => do
      let objs ← names.mapM f.vars
      let argv1 ← objs.mapM (cvargGet cc)
      return { f with argv1 }
  | .vretDecl, f => some { f with vret := none }
  | .vretInit ret, f => do
      match ret with
      | none => return { f with vret := some (.void, none) }
      | some name => do
          let o ← f.vars name
          return { f with vret := some (typeID cc o.type, none) }
  | .callHelper helper target, f => do
      let callback ← target.mapM f.vars
      let vargs ← f.vars vargsName
      let (type, _) ← f.vret
      let call := Call.boxed helper (callback.bind Obj.val) f.argv1 vargs.val type
      return { f with calls := f.calls ++ [call], vret := some (type, some (rt.owner call)) }
  | .vretValueAssign type, f => do
      let t ← cc.varType type
      let (_, held) ← f.vret
      let val ← unboxed t held
      f.assign retName ⟨t, val⟩
  | .returnRet, f => do
      let o ← f.vars retName
      return { f with result := some o }

def execLines (lines : List Line) (f : Frame V) : Option (Frame V) :=
  lines.foldlM (fun f line => exec cc rt lastCallback link line f) f

end Exec

/-! ## Layers -/

section Run

variable {V : Type} (cc : Compiler) (rt : Runtime V) (lastCallback : V)

/-- The layer takes these objects as its arguments. -/
def accepts (info : FunctionInfo) (objs : List (Obj V)) : Bool :=
  info.arguments.mapM (fun arg => cc.paramType arg.1) = some (objs.map Obj.type)

/-- The lines of a body that a builder made. -/
def FunctionBodySource.lines (body : FunctionBodySource) : List Line :=
  body.prolog ++ body.center ++ body.epilog

/-- The frame that a typed layer starts with. -/
def Frame.ofCall (info : FunctionInfo) (objs : List (Obj V)) (tail : Option V) : Frame V where
  vars := Environment.ofParams info.argNames objs
  params := info.argNames
  tail := tail

/-- A call of a typed layer. -/
def invoke (src : ProcSource) (link : Linkage V) (objs : List (Obj V)) (tail : Option V) :
    Option (Outcome V) := do
  let info ← src.functionInfo
  if accepts cc info objs && (tail.isNone || info.isVariadic) then
    (execLines cc rt lastCallback link src.body.lines (.ofCall info objs tail)).map Frame.outcome
  else none

/-- The frame that a packed layer starts with. -/
def Frame.ofPacked (callback : Option (Obj V)) (args : List (Obj V)) (ret : Option (Obj V)) :
    Frame V where
  vars name := if name = callbackName then callback else none
  args := args
  pointee := ret

/-- A call of a packed layer: what it calls and the object behind `ret` afterwards. -/
def invokePacked (src : ProcSource) (link : Linkage V) (callback : Option (Obj V))
    (args : List (Obj V)) (ret : Option (Obj V)) : Option (List (Call V) × Option (Obj V)) := do
  let info ← src.functionInfo
  let packed := if callback.isSome then FI_packedCallbackInfo else FI_packedFunctionInfo
  if info.argNames = packed.argNames then
    (execLines cc rt lastCallback link src.body.lines (.ofPacked callback args ret)).map
      Frame.packedOutcome
  else none

/-- The direct call of the function that a proc stands for. -/
def invokeOwner (proc : ProcSnippet) (view : FunctionTypeView) (objs : List (Obj V)) :
    Option (Outcome V) := do
  let callback := if proc.isFunction then none else objs.head?.bind Obj.val
  let args := if proc.isFunction then objs else objs.tail
  if args.map Obj.type = view.argTypes then
    let call := Call.direct callback (args.map Obj.val) none
    return ⟨[call], if view.returnType.isVoidType then none
      else some ⟨view.returnType, some (rt.owner call)⟩⟩
  else none

/-- No other layer can be called. -/
def Linkage.only (phase : ProcPhase) (next : List (Obj V) → Option (Outcome V)) : Linkage V where
  next phase' objs := if phase' = phase then next objs else none
  cross _ _ _ := none

section Receiver

variable (proc : ProcSnippet) (view : FunctionTypeView) (src : ProcSources)

def receiverCaller (objs : List (Obj V)) : Option (Outcome V) :=
  invoke cc rt lastCallback src.caller (.only .exec (invokeOwner rt proc view)) objs none

def receiverAdapt (objs : List (Obj V)) : Option (Outcome V) :=
  invoke cc rt lastCallback src.adapt
    (.only .caller (receiverCaller cc rt lastCallback proc view src)) objs none

/-- The receiver's side, behind a packed call. -/
def receive (callback : Option (Obj V)) (args : List (Obj V)) (ret : Option (Obj V)) :
    Option (List (Call V) × Option (Obj V)) :=
  invokePacked cc rt lastCallback src.entry
    (.only .adapt (receiverAdapt cc rt lastCallback proc view src)) callback args ret

end Receiver

section Sender

variable (src : ProcSources) (cross : Option (Obj V) → List (Obj V) → Option (Obj V) →
  Option (List (Call V) × Option (Obj V)))

def senderCaller (objs : List (Obj V)) : Option (Outcome V) :=
  invoke cc rt lastCallback src.caller ⟨fun _ _ => none, cross⟩ objs none

def senderAdapt (objs : List (Obj V)) : Option (Outcome V) :=
  invoke cc rt lastCallback src.adapt (.only .caller (senderCaller cc rt lastCallback src cross))
    objs none

/-- The sender's side, in front of a packed call. -/
def send (objs : List (Obj V)) (tail : Option V) : Option (Outcome V) :=
  invoke cc rt lastCallback src.entry (.only .adapt (senderAdapt cc rt lastCallback src cross))
    objs tail

end Sender

end Run

/-! ## Calls -/

/-- The builders that make layers, with the message of the one that has one. -/
inductive Builder where
  | default
  | format (self : LibCFormatPass) (message : LibCFormatMessage)
deriving DecidableEq, Repr

def Builder.beginHandleProc (builder : Builder) (cc : Compiler) (proc : ProcSnippet)
    (view : FunctionTypeView) (mode : Mode) : Option ProcSources :=
  match builder with
  | .default => some (DefaultBuilder.beginHandleProc cc.getAsString proc view mode)
  | .format self message =>
      self.beginHandleProc cc.getAsString message proc view mode

/-- What a proc is called with. For a callback, the trampoline has left the function that
it stands for. -/
structure Invocation (V : Type) where
  args : List V
  tail : Option V
  callback : V

def senderMode : ProcDirection → Mode
  | .guestToHost => .guest
  | .hostToGuest => .host

def receiverMode : ProcDirection → Mode
  | .guestToHost => .host
  | .hostToGuest => .guest

/-- The objects that the arguments of a call are. -/
def argObjs {V : Type} (view : FunctionTypeView) (args : List V) : List (Obj V) :=
  List.zipWith (fun type v => ⟨type, some v⟩) view.argTypes args

/-- A call of the Entry of the sender, through the layers of both modes. -/
def runCall {V : Type} (cc : Mode → Compiler) (builder : Builder) (proc : ProcSnippet)
    (view : FunctionTypeView) (rt : Runtime V) (call : Invocation V) : Option (Outcome V) := do
  let sMode := senderMode proc.direction
  let rMode := receiverMode proc.direction
  let sender ← builder.beginHandleProc (cc sMode) proc view sMode
  let receiver ← builder.beginHandleProc (cc rMode) proc view rMode
  send (cc sMode) rt call.callback sender (receive (cc rMode) rt call.callback proc view receiver)
    (argObjs view call.args) call.tail

end Lorelei.TLC
