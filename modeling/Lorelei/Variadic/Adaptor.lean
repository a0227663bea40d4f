import Mathlib.Algebra.Group.Int.Defs
import Mathlib.Algebra.Group.Nat.Defs
import Mathlib.Data.List.Forall2

/-!
# Boxed arguments and their replay

`CVargEntry` and the tables that work on it: the readers of `va_type.h`, `CVargGet`
and the codes of `callFormatBox64` box a value, and `VariadicAdaptor::call` / `vcall`
replay boxed values through libffcall.

* A C value is its type and its bits, in the LP64 widths.  Floating-point values are
  their bit patterns; the one conversion, from `float` to `double`, is a parameter.
* The union of a `CVargEntry` is its eight bytes.  Every field starts at the first
  byte, so that a field is the low bits of the union.
* libffcall passes and returns each value at the type its macro names: what a call
  passes is a list of `Slot`s, and a callee reads a slot if it has the right width and
  is in the right class of registers.
-/

namespace Lorelei.Variadic

/-- The boxable C types. -/
inductive CType where
  | char | uchar | short | ushort | int | uint | long | ulong | longlong | ulonglong
  | float | double | pointer
deriving DecidableEq, Repr

namespace CType

/-- The width in bits (LP64). -/
def width : CType → Nat
  | .char | .uchar => 8
  | .short | .ushort => 16
  | .int | .uint | .float => 32
  | .long | .ulong | .longlong | .ulonglong | .double | .pointer => 64

/-- Passed in a floating-point register. -/
def isFloat : CType → Bool
  | .float | .double => true
  | _ => false

/-- Unchanged by the default argument promotions. -/
def isPromoted : CType → Bool
  | .char | .uchar | .short | .ushort | .float => false
  | _ => true

end CType

/-- A C value. -/
structure Value where
  type : CType
  bits : BitVec type.width
deriving DecidableEq

/-! ## The record -/

/-- `CVargType`. -/
inductive CVargType where
  | void | char | uchar | short | ushort | int | uint | long | ulong | longlong | ulonglong
  | float | double | pointer
deriving DecidableEq, Repr

/-- The fields of the union in `CVargEntry`. -/
inductive Field where
  | c | uc | s | us | i | u | l | ul | ll | ull | f | d | p
deriving DecidableEq, Repr

/-- The width of a field; `ul` is declared `unsigned`. -/
def Field.width : Field → Nat
  | .c | .uc => 8
  | .s | .us => 16
  | .i | .u | .ul | .f => 32
  | .l | .ll | .ull | .d | .p => 64

/-- `CVargEntry`. -/
structure CVargEntry where
  type : CVargType
  union : BitVec 64
deriving DecidableEq

/-- Overwrite the low bits of a union. -/
def writeLow (u : BitVec 64) {w : Nat} (v : BitVec w) : BitVec 64 :=
  ((u >>> w) <<< w) ||| v.setWidth 64

namespace CVargEntry

/-- Read a field. -/
def get (e : CVargEntry) (field : Field) : BitVec field.width := e.union.setWidth field.width

/-- Assign a value to a field, with C's conversion from one unsigned type to another
where the widths differ. -/
def set (e : CVargEntry) (field : Field) {w : Nat} (v : BitVec w) : CVargEntry :=
  { e with union := writeLow e.union (v.setWidth field.width) }

end CVargEntry

/-- `{.type = type}`: the rest is zero. -/
def CVargEntry.ofType (type : CVargType) : CVargEntry := ⟨type, 0⟩

/-- Where the first `CVargType_Void` is; `none` when the array ends before one. -/
def sentinelIndex : List CVargEntry → Option Nat
  | [] => none
  | e :: rest => if e.type = .void then some 0 else (sentinelIndex rest).map (· + 1)

/-- `CVargEntryLength`: `none` when it reads past the array or its `int` overflows. -/
def cvargEntryLength (argv : List CVargEntry) : Option Nat :=
  (sentinelIndex argv).filter (· < 2 ^ 31)

/-! ## Boxing -/

/-- `_CVargTypeID`. -/
def cvargTypeID : CType → CVargType
  | .char => .char
  | .uchar => .uchar
  | .short => .short
  | .ushort => .ushort
  | .int => .int
  | .uint => .uint
  | .long => .long
  | .ulong => .ulong
  | .longlong => .longlong
  | .ulonglong => .ulonglong
  | .float => .float
  | .double => .double
  | .pointer => .pointer

/-- `_CVargValueRef`. -/
def cvargValueRef : CType → Field
  | .char => .c
  | .uchar => .uc
  | .short => .s
  | .ushort => .us
  | .int => .i
  | .uint => .u
  | .long => .l
  | .ulong => .ul
  | .longlong => .ll
  | .ulonglong => .ull
  | .float => .f
  | .double => .d
  | .pointer => .p

/-- `CVargValue`, converted to the type it is asked for. -/
def cvargValue (type : CType) (e : CVargEntry) : Value :=
  ⟨type, (e.get (cvargValueRef type)).setWidth type.width⟩

/-- `CVargGet`; `result` is the uninitialised local. -/
def cvargGet (result : CVargEntry) (x : Value) : CVargEntry :=
  { result with type := cvargTypeID x.type }.set (cvargValueRef x.type) x.bits

/-- The boxing readers of `va_type.h`. -/
inductive Reader where
  | int | unsignedInt | long | unsignedLong | longLong | unsignedLongLong | float | double
  | string | pointer
deriving DecidableEq, Repr

namespace Reader

/-- The type a reader passes to `va_arg`. -/
def type : Reader → CType
  | .int => .int
  | .unsignedInt => .uint
  | .long => .long
  | .unsignedLong => .ulong
  | .longLong => .longlong
  | .unsignedLongLong => .ulonglong
  | .float | .double => .double
  | .string | .pointer => .pointer

/-- The entry a reader boxes what it has read in. -/
def box {w : Nat} (val : BitVec w) : Reader → CVargEntry
  | .int => (CVargEntry.ofType .int).set .i val
  | .unsignedInt => (CVargEntry.ofType .uint).set .u val
  | .long => (CVargEntry.ofType .long).set .l val
  | .unsignedLong => (CVargEntry.ofType .ulong).set .ul val
  | .longLong => (CVargEntry.ofType .longlong).set .ll val
  | .unsignedLongLong => (CVargEntry.ofType .ulonglong).set .ull val
  | .float | .double => (CVargEntry.ofType .double).set .d val
  | .string | .pointer => (CVargEntry.ofType .pointer).set .p val

end Reader

/-- `*reinterpret_cast<T *>(arg)` for a `T` of this type; `arg` is the storage. -/
def load (type : CType) (arg : BitVec 64) : BitVec type.width := arg.setWidth type.width

/-- `callFormatBox64_arg_entry`. -/
def callFormatBox64ArgEntry (fmt : Char) (entry : CVargEntry) (arg : BitVec 64) : CVargEntry :=
  match fmt with
  | 'c' => { entry with type := .char }.set .c (load .char arg)
  | 'C' => { entry with type := .uchar }.set .uc (load .uchar arg)
  | 's' => { entry with type := .short }.set .s (load .short arg)
  | 'S' => { entry with type := .ushort }.set .us (load .ushort arg)
  | 'i' => { entry with type := .int }.set .i (load .int arg)
  | 'I' => { entry with type := .uint }.set .u (load .uint arg)
  | 'l' => { entry with type := .long }.set .l (load .long arg)
  | 'u' => { entry with type := .ulong }.set .ul (load .ulong arg)
  | 'L' => { entry with type := .longlong }.set .ll (load .longlong arg)
  | 'U' => { entry with type := .ulonglong }.set .ull (load .ulonglong arg)
  | 'f' => { entry with type := .float }.set .f (load .float arg)
  | 'F' => { entry with type := .double }.set .d (load .double arg)
  | 'p' => { entry with type := .pointer }.set .p (load .pointer arg)
  | _ => { entry with type := .void }

/-- `callFormatBox64_ret_entry`. -/
def callFormatBox64RetEntry (fmt : Char) (entry : CVargEntry) : CVargEntry :=
  match fmt with
  | 'c' => { entry with type := .char }
  | 'C' => { entry with type := .uchar }
  | 's' => { entry with type := .short }
  | 'S' => { entry with type := .ushort }
  | 'i' => { entry with type := .int }
  | 'I' => { entry with type := .uint }
  | 'l' => { entry with type := .long }
  | 'u' => { entry with type := .ulong }
  | 'L' => { entry with type := .longlong }
  | 'U' => { entry with type := .ulonglong }
  | 'f' => { entry with type := .float }
  | 'F' => { entry with type := .double }
  | 'p' => { entry with type := .pointer }
  | _ => { entry with type := .void }

/-- The last `switch` of `callFormatBox64`: the value stored through `ret`. -/
def callFormatBox64Ret (vret : CVargEntry) : Option Value :=
  match vret.type with
  | .char => some ⟨.char, vret.get .c⟩
  | .uchar => some ⟨.uchar, vret.get .uc⟩
  | .short => some ⟨.short, vret.get .s⟩
  | .ushort => some ⟨.ushort, vret.get .us⟩
  | .int => some ⟨.int, vret.get .i⟩
  | .uint => some ⟨.uint, vret.get .u⟩
  | .long => some ⟨.long, vret.get .l⟩
  | .ulong => some ⟨.ulong, (vret.get .ul).setWidth 64⟩
  | .longlong => some ⟨.longlong, vret.get .ll⟩
  | .ulonglong => some ⟨.ulonglong, vret.get .ull⟩
  | .float => some ⟨.float, vret.get .f⟩
  | .double => some ⟨.double, vret.get .d⟩
  | .pointer => some ⟨.pointer, vret.get .p⟩
  | .void => none

/-! ## Replay -/

/-- One argument on its way to the callee, at the type of the macro that passed it. -/
abbrev Slot := Value

/-- `avcall_start_helper`: the type of the start macro, which names the type libffcall
stores to the entry's union after the call. -/
def avcallStartHelper (entry : CVargEntry) : Option CType :=
  match entry.type with
  | .void => none
  | .char => some .char
  | .uchar => some .uchar
  | .short => some .short
  | .ushort => some .ushort
  | .int => some .int
  | .uint => some .uint
  | .long => some .long
  | .ulong => some .ulong
  | .longlong => some .longlong
  | .ulonglong => some .longlong
  | .float => some .float
  | .double => some .double
  | .pointer => some .pointer

/-- `avcall_arg_helper`: the slots it adds. -/
def avcallArgHelper (entry : CVargEntry) : List Slot :=
  match entry.type with
  | .char => [⟨.char, entry.get .c⟩]
  | .uchar => [⟨.uchar, entry.get .uc⟩]
  | .short => [⟨.short, entry.get .s⟩]
  | .ushort => [⟨.ushort, entry.get .us⟩]
  | .int => [⟨.int, entry.get .i⟩]
  | .uint => [⟨.int, entry.get .u⟩]
  | .long => [⟨.long, entry.get .l⟩]
  | .ulong => [⟨.ulong, (entry.get .ul).setWidth 64⟩]
  | .longlong => [⟨.longlong, entry.get .ll⟩]
  | .ulonglong => [⟨.ulonglong, entry.get .ull⟩]
  | .float => [⟨.float, entry.get .f⟩]
  | .double => [⟨.double, entry.get .d⟩]
  | .pointer => [⟨.pointer, entry.get .p⟩]
  | .void => []

/-- What the build and the platform decide. -/
structure Platform where
  /-- `defined(__riscv) && __riscv_xlen == 64` -/
  riscv64 : Bool
  /-- The conversion from `float` to `double`. -/
  widen : BitVec 32 → BitVec 64

/-- `avcall_vararg_helper`. -/
def avcallVarargHelper (pf : Platform) (entry : CVargEntry) : List Slot :=
  if pf.riscv64 = true ∧ (entry.type = .double ∨ entry.type = .float) then
    [⟨.longlong, if entry.type = .double then entry.get .d else pf.widen (entry.get .f)⟩]
  else avcallArgHelper entry

/-- What `av_call` passes to the function: its fixed parameters, then the variadic
part. -/
structure Passed where
  fixed : List Slot
  variadic : List Slot
deriving DecidableEq

/-- How many entries a count stands for: a negative one asks for the sentinel. -/
def entryCount (argc : Int) (argv : List CVargEntry) : Option Nat :=
  if argc < 0 then cvargEntryLength argv else some argc.toNat

/-- The entries the loops over `argv` read; `none` when they leave the array. -/
def entries (argc : Int) (argv : List CVargEntry) : Option (List CVargEntry) :=
  (entryCount argc argv).bind fun n => if n ≤ argv.length then some (argv.take n) else none

/-- `av_call` stores what the function returns at the address the start macro was
given, which is the start of the union; `returned` is the return register. -/
def storeReturn (ret : CVargEntry) (returned : BitVec 64) : CVargEntry :=
  match avcallStartHelper ret with
  | none => ret
  | some type => { ret with union := writeLow ret.union (returned.setWidth type.width) }

/-- `VariadicAdaptor::call`, with the entry `ret` after it. -/
def call (pf : Platform) (argc1 : Int) (argv1 : List CVargEntry) (argc2 : Int)
    (argv2 : List CVargEntry) (ret : CVargEntry) (returned : BitVec 64) :
    Option (Passed × CVargEntry) := do
  let es1 ← entries argc1 argv1
  let es2 ← entries argc2 argv2
  return (⟨es1.flatMap avcallArgHelper, es2.flatMap (avcallVarargHelper pf)⟩,
    storeReturn ret returned)

/-- `vcall_forward`; `ap` is what follows `ret`, which it hands on as a `va_list`. -/
def vcallForward (argc1 : Int) (argv1 : List CVargEntry) (ret : CVargEntry) (ap : List Slot)
    (returned : BitVec 64) : Option (Passed × CVargEntry) := do
  let es1 ← entries argc1 argv1
  return (⟨es1.flatMap avcallArgHelper, ap⟩, storeReturn ret returned)

/-- `VariadicAdaptor::vcall`. -/
def vcall (pf : Platform) (argc1 : Int) (argv1 : List CVargEntry) (argc2 : Int)
    (argv2 : List CVargEntry) (ret : CVargEntry) (returned : BitVec 64) :
    Option (Passed × CVargEntry) := do
  let es2 ← entries argc2 argv2
  vcallForward argc1 argv1 ret (es2.flatMap (avcallVarargHelper pf)) returned

/-- `static_cast<int>` of a size. -/
def castInt (n : Nat) : Int := (BitVec.ofNat 32 n).toInt

/-- The boxing loop of `callFormatBox64`: `vargs` is the array it fills; `none` when
`args` is shorter than the format. -/
def boxArgs : List Char → List CVargEntry → List (BitVec 64) → Option (List CVargEntry)
  | [], _, _ => some []
  | fmt :: fmts, entry :: vargs, arg :: args =>
      (boxArgs fmts vargs args).map (callFormatBox64ArgEntry fmt entry arg :: ·)
  | _ :: _, _, _ => none

/-- `VariadicAdaptor::callFormatBox64`, with the value stored through `ret`, if `ret` is
not null; `none` when an assertion fails.  `vargs` is the resized array before it is
filled. -/
def callFormatBox64 (pf : Platform) (fmt : List Char) (vargs : List CVargEntry)
    (args : List (BitVec 64)) (ret : Bool) (returned : BitVec 64) :
    Option (Passed × Option Value) :=
  match fmt with
  | retCode :: '_' :: codes => do
      let vargs ← boxArgs codes vargs args
      let vret := callFormatBox64RetEntry retCode ⟨.void, 0⟩
      let (passed, vret) ← call pf (castInt codes.length) vargs 0 [] vret returned
      return (passed, if ret then callFormatBox64Ret vret else none)
  | _ => none

/-! ## The callee -/

/-- Read a parameter of this type from a slot: the slot has its width and is in the
registers the callee looks in.  `intFloats` is set for the variadic part on riscv64,
which is in integer registers throughout. -/
def Slot.receive (intFloats : Bool) (type : CType) (slot : Slot) : Option Value :=
  if slot.type.width = type.width ∧ slot.type.isFloat = (type.isFloat && !intFloats) then
    some ⟨type, slot.bits.setWidth type.width⟩
  else none

/-- Read all parameters, one slot each. -/
def receiveAll (intFloats : Bool) : List CType → List Slot → Option (List Value)
  | [], [] => some []
  | type :: types, slot :: slots => do
      let v ← Slot.receive intFloats type slot
      let vs ← receiveAll intFloats types slots
      return v :: vs
  | _, _ => none

end Lorelei.Variadic
