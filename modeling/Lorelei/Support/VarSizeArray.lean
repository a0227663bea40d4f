import Lorelei.Lib.StorageRanges

/-!
# `VarSizeArray`

An array with an inline buffer for `N` elements, which moves to a heap buffer when it outgrows
it. The elements live in storage with checked lifetimes, so that an operation that reads,
constructs or destroys what it must not is a fault.
-/

namespace Lorelei.Support

open Storage

/-- What arrays are told about their elements: `T()`, what a moved-from element holds, and the
number of elements that can be allocated at most. -/
structure ElementTraits (T : Type) where
  default : T
  residue : T → T
  maxSize : Nat
  maxSize_lt : maxSize < 2 ^ 63

/-- Arithmetic on `size_type`. -/
def wrap (n : Nat) : Nat := n % 2 ^ 64

/-- `VarSizeArrayBase`. Pointers to buffers are their blocks. -/
structure VarSizeArray where
  begin : Nat
  size : Nat
  capacity : Nat
  inlineBegin : Nat
  inlineCapacity : Nat
deriving DecidableEq, Repr

/-- An argument that is passed by reference: to a value elsewhere, or to a cell. -/
inductive Arg (T : Type) where
  | value (v : T)
  | element (b i : Nat)

def Arg.read {T : Type} : Arg T → Exec T T
  | value v => return v
  | element b i => Storage.read b i

namespace VarSizeArray

variable {T : Type} (traits : ElementTraits T)

/-! ## Buffers -/

def kMinHeapCapacity : Nat := 4

def isInline (a : VarSizeArray) : Bool := a.begin = a.inlineBegin

/-- `VarSizeArray()`: the object with its inline buffer, which `adoptInlineBuffer` registers. -/
def create (N : Nat) : Exec T VarSizeArray := do
  let buffer ← newBlock false traits.maxSize N
  return ⟨buffer, 0, N, buffer, N⟩

def destroyRange (a : VarSizeArray) (first last : Nat) : Exec T PUnit :=
  destroyCells a.begin first (last - first)

def computeNewCapacity (a : VarSizeArray) (minCapacity : Nat) : Nat :=
  let c := wrap (a.capacity * 2)
  let c := if c < minCapacity then minCapacity else c
  if c < kMinHeapCapacity then kMinHeapCapacity else c

def relocateTo (a : VarSizeArray) (dst : Nat) : Exec T PUnit :=
  relocateCells traits.residue a.begin dst 0 a.size

/-- `if (!isInline()) AT::deallocate(m_alloc, m_begin, m_capacity)`. -/
def deallocate (a : VarSizeArray) : Exec T PUnit :=
  if a.isInline then return ⟨⟩ else release true a.begin a.capacity

def grow (a : VarSizeArray) (minCapacity : Nat) : Exec T VarSizeArray := do
  let newCapacity := a.computeNewCapacity minCapacity
  let newBuffer ← newBlock true traits.maxSize newCapacity
  a.relocateTo traits newBuffer
  a.deallocate
  return { a with begin := newBuffer, capacity := newCapacity }

/-- The new element is constructed before the others leave the old buffer. -/
def growAndEmplaceBack (a : VarSizeArray) (arg : Arg T) : Exec T VarSizeArray := do
  let newCapacity := a.computeNewCapacity (wrap (a.size + 1))
  let newBuffer ← newBlock true traits.maxSize newCapacity
  construct newBuffer a.size (← arg.read)
  a.relocateTo traits newBuffer
  a.deallocate
  return { a with begin := newBuffer, capacity := newCapacity, size := a.size + 1 }

def resetToInline (a : VarSizeArray) : Exec T VarSizeArray := do
  a.destroyRange 0 a.size
  a.deallocate
  return { a with begin := a.inlineBegin, capacity := a.inlineCapacity, size := 0 }

/-- The destructor, and the end of the inline buffer. -/
def destruct (a : VarSizeArray) : Exec T PUnit := do
  a.destroyRange 0 a.size
  a.deallocate
  release false a.inlineBegin a.inlineCapacity

/-! ## Adding elements -/

def reserve (a : VarSizeArray) (n : Nat) : Exec T VarSizeArray :=
  if a.capacity < n then a.grow traits n else return a

def emplaceBack (a : VarSizeArray) (arg : Arg T) : Exec T VarSizeArray :=
  if a.size = a.capacity then a.growAndEmplaceBack traits arg
  else do
    construct a.begin a.size (← arg.read)
    return { a with size := a.size + 1 }

def pushBack (a : VarSizeArray) (arg : Arg T) : Exec T VarSizeArray := a.emplaceBack traits arg

def append (a : VarSizeArray) : List (Arg T) → Exec T VarSizeArray
  | [] => return a
  | arg :: args => do
      let a ← a.pushBack traits arg
      a.append args

/-- Iterators are given by indices, also those that are returned. -/
def insert (a : VarSizeArray) (index : Nat) (arg : Arg T) : Exec T (VarSizeArray × Nat) := do
  let a ← a.pushBack traits arg
  rotateCells a.begin index (a.size - 1) a.size
  return (a, index)

def insertCopies (a : VarSizeArray) (index count : Nat) (arg : Arg T) :
    Exec T (VarSizeArray × Nat) :=
  if count = 0 then return (a, index)
  else do
    let copy ← arg.read
    let a ← a.reserve traits (wrap (a.size + count))
    fillCells copy a.begin a.size count
    let a := { a with size := a.size + count }
    rotateCells a.begin index (a.size - count) a.size
    return (a, index)

def insertRange (a : VarSizeArray) (index : Nat) (args : List (Arg T)) :
    Exec T (VarSizeArray × Nat) := do
  let oldSize := a.size
  let a ← a.append traits args
  rotateCells a.begin index oldSize a.size
  return (a, index)

/-! ## Removing elements -/

def popBack (a : VarSizeArray) : Exec T VarSizeArray := do
  let a := { a with size := a.size - 1 }
  destroy a.begin a.size
  return a

def erase (a : VarSizeArray) (index : Nat) : Exec T (VarSizeArray × Nat) := do
  shiftCells traits.residue a.begin (index + 1) a.size index
  let a ← a.popBack
  return (a, index)

def eraseRange (a : VarSizeArray) (first last : Nat) : Exec T (VarSizeArray × Nat) :=
  if first = last then return (a, first)
  else do
    shiftCells traits.residue a.begin last a.size first
    let removed := last - first
    a.destroyRange (a.size - removed) a.size
    return ({ a with size := a.size - removed }, first)

def clear (a : VarSizeArray) : Exec T VarSizeArray := do
  a.destroyRange 0 a.size
  return { a with size := 0 }

/-- `resize`, given what constructs the elements that are missing. -/
def resizeWith (a : VarSizeArray) (n : Nat) (arg : Arg T) : Exec T VarSizeArray :=
  if n < a.size then do
    a.destroyRange n a.size
    return { a with size := n }
  else if a.size < n then do
    let a ← a.reserve traits n
    forRange (fun i => do construct a.begin i (← arg.read)) a.size (n - a.size)
    return { a with size := n }
  else return { a with size := n }

def resize (a : VarSizeArray) (n : Nat) : Exec T VarSizeArray :=
  a.resizeWith traits n (.value traits.default)

def resizeValue (a : VarSizeArray) (n : Nat) (arg : Arg T) : Exec T VarSizeArray :=
  a.resizeWith traits n arg

/-! ## Two arrays -/

/-- The elements of the longer array that the shorter one lacks. -/
def moveTail (longer shorter : VarSizeArray) (shared : Nat) :
    Exec T (VarSizeArray × VarSizeArray) := do
  moveCells traits.residue longer.begin shorter.begin shared (longer.size - shared)
  longer.destroyRange shared longer.size
  return ({ longer with size := shared }, { shorter with size := longer.size })

/-- `swap` with another array. -/
def swap (a rhs : VarSizeArray) : Exec T (VarSizeArray × VarSizeArray) :=
  if !a.isInline && !rhs.isInline then
    return ({ a with begin := rhs.begin, size := rhs.size, capacity := rhs.capacity },
      { rhs with begin := a.begin, size := a.size, capacity := a.capacity })
  else do
    let a ← a.reserve traits rhs.size
    let rhs ← rhs.reserve traits a.size
    let shared := min a.size rhs.size
    swapCells a.begin rhs.begin 0 shared
    if rhs.size ≤ a.size then a.moveTail traits rhs shared
    else do
      let (rhs, a) ← rhs.moveTail traits a shared
      return (a, rhs)

/-- `assign` from another array. -/
def copyAssign (a rhs : VarSizeArray) : Exec T VarSizeArray := do
  let a ← a.clear
  let a ← a.reserve traits rhs.size
  copyCells rhs.begin a.begin 0 rhs.size
  return { a with size := rhs.size }

/-- `assign` from another array that is moved from. -/
def moveAssign (a rhs : VarSizeArray) : Exec T (VarSizeArray × VarSizeArray) := do
  let a ← a.resetToInline
  if !rhs.isInline then
    return ({ a with begin := rhs.begin, size := rhs.size, capacity := rhs.capacity },
      { rhs with begin := rhs.inlineBegin, size := 0, capacity := rhs.inlineCapacity })
  else do
    let a ← a.reserve traits rhs.size
    moveCells traits.residue rhs.begin a.begin 0 rhs.size
    let a := { a with size := rhs.size }
    let rhs ← rhs.clear
    return (a, rhs)

/-! ## Constructors and assignments -/

/-- The constructors from an initializer list or a range. -/
def createFrom (N : Nat) (args : List (Arg T)) : Exec T VarSizeArray := do
  let a ← create traits N
  a.append traits args

def createCopy (N : Nat) (rhs : VarSizeArray) : Exec T VarSizeArray := do
  let a ← create traits N
  a.copyAssign traits rhs

def createMove (N : Nat) (rhs : VarSizeArray) : Exec T (VarSizeArray × VarSizeArray) := do
  let a ← create traits N
  a.moveAssign traits rhs

/-- `operator=` from an initializer list. -/
def assignList (a : VarSizeArray) (args : List (Arg T)) : Exec T VarSizeArray := do
  let a ← a.clear
  a.append traits args

end VarSizeArray

end Lorelei.Support
