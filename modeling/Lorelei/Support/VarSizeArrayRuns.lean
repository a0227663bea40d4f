import Lorelei.Support.VarSizeArrayContents

/-!
# Sequences of operations on arrays

Arrays of any inline capacities are created, changed and destroyed in any order, and the same
is done to plain lists. Element arguments are values or elements of other arrays.
-/

namespace Lorelei.Support.VarSizeArray

open Storage

variable {T : Type}

/-! ## Operations -/

/-- An element argument: a value, or an element of an array. -/
inductive Operand (T : Type) where
  | value (v : T)
  | element (k i : Nat)
deriving DecidableEq, Repr

/-- The operations on one array. -/
inductive Change (T : Type) where
  | pushBack (arg : Operand T)
  | append (args : List (Operand T))
  | insert (index : Nat) (arg : Operand T)
  | insertCopies (index count : Nat) (arg : Operand T)
  | insertRange (index : Nat) (args : List (Operand T))
  | popBack
  | erase (index : Nat)
  | eraseRange (first last : Nat)
  | clear
  | reserve (n : Nat)
  | resize (n : Nat)
  | resizeValue (n : Nat) (arg : Operand T)
  | assignList (args : List (Operand T))
deriving DecidableEq, Repr

inductive Op (T : Type) where
  | create (N : Nat) (args : List (Operand T))
  | createCopy (N k : Nat)
  | createMove (N k : Nat)
  | destruct (k : Nat)
  | change (k : Nat) (change : Change T)
  | swap (k l : Nat)
  | copyAssign (k l : Nat)
  | moveAssign (k l : Nat)
deriving DecidableEq, Repr

/-! ## On arrays -/

/-- What an operation refers to must be there. -/
def given {α : Type} : Option α → Exec T α
  | none => fun _ => .error .noObject
  | some x => return x

section Arrays

variable (traits : ElementTraits T) (arrays : List (Option VarSizeArray))

def Operand.resolve : Operand T → Option (Arg T)
  | value v => some (.value v)
  | element k i => arrays[k]?.join.map fun a => .element a.begin i

def Change.run (resolve : Operand T → Option (Arg T)) (a : VarSizeArray) :
    Change T → Exec T VarSizeArray
  | pushBack arg => do a.pushBack traits (← given (resolve arg))
  | append args => do a.append traits (← given (args.mapM resolve))
  | insert index arg => do
      let (a, _) ← a.insert traits index (← given (resolve arg))
      return a
  | insertCopies index count arg => do
      let (a, _) ← a.insertCopies traits index count (← given (resolve arg))
      return a
  | insertRange index args => do
      let (a, _) ← a.insertRange traits index (← given (args.mapM resolve))
      return a
  | popBack => a.popBack
  | erase index => do
      let (a, _) ← a.erase traits index
      return a
  | eraseRange first last => do
      let (a, _) ← a.eraseRange traits first last
      return a
  | clear => a.clear
  | reserve n => a.reserve traits n
  | resize n => a.resize traits n
  | resizeValue n arg => do a.resizeValue traits n (← given (resolve arg))
  | assignList args => do a.assignList traits (← given (args.mapM resolve))

/-- `this == &RHS` is a comparison of places in the list. -/
def Op.run : Op T → Exec T (List (Option VarSizeArray))
  | create N args => do
      let a ← createFrom traits N (← given (args.mapM (Operand.resolve arrays)))
      return arrays ++ [some a]
  | createCopy N k => do
      let rhs ← given arrays[k]?.join
      let a ← VarSizeArray.createCopy traits N rhs
      return arrays ++ [some a]
  | createMove N k => do
      let rhs ← given arrays[k]?.join
      let (a, rhs) ← VarSizeArray.createMove traits N rhs
      return arrays.set k (some rhs) ++ [some a]
  | destruct k => do
      let a ← given arrays[k]?.join
      a.destruct
      return arrays.set k none
  | change k c => do
      let a ← given arrays[k]?.join
      let a ← c.run traits (Operand.resolve arrays) a
      return arrays.set k (some a)
  | swap k l => do
      let a ← given arrays[k]?.join
      let rhs ← given arrays[l]?.join
      if k = l then return arrays
      else do
        let (a, rhs) ← a.swap traits rhs
        return (arrays.set k (some a)).set l (some rhs)
  | copyAssign k l => do
      let a ← given arrays[k]?.join
      let rhs ← given arrays[l]?.join
      if k = l then return arrays
      else do
        let a ← a.copyAssign traits rhs
        return arrays.set k (some a)
  | moveAssign k l => do
      let a ← given arrays[k]?.join
      let rhs ← given arrays[l]?.join
      if k = l then return arrays
      else do
        let (a, rhs) ← a.moveAssign traits rhs
        return (arrays.set k (some a)).set l (some rhs)

/-- Operations, one after the other. -/
def runAll : List (Op T) → List (Option VarSizeArray) → Exec T (List (Option VarSizeArray))
  | [], arrays => return arrays
  | op :: ops, arrays => do
      let arrays ← op.run traits arrays
      runAll ops arrays

end Arrays

/-! ## On lists -/

/-- A list in the place of an array. -/
structure PlainList (T : Type) where
  inlineCapacity : Nat
  items : List T
deriving DecidableEq, Repr

section Lists

variable (default : T) (lists : List (Option (PlainList T)))

/-- The value of an argument that does not refer into the array `self`. -/
def Operand.value? (self : Option Nat) : Operand T → Option T
  | value v => some v
  | element k i =>
      if self = some k then none else lists[k]?.join.bind fun p => p.items[i]?

/-- Operations on a list; they are not defined for positions outside. -/
def Change.plain (value : Operand T → Option T) (vs : List T) : Change T → Option (List T)
  | pushBack arg => (value arg).map fun v => vs ++ [v]
  | append args => (args.mapM value).map fun ws => vs ++ ws
  | insert index arg =>
      if index ≤ vs.length then (value arg).map fun v => splice index [v] vs else none
  | insertCopies index count arg =>
      if index ≤ vs.length then
        (value arg).map fun v => splice index (List.replicate count v) vs
      else none
  | insertRange index args =>
      if index ≤ vs.length then (args.mapM value).map fun ws => splice index ws vs else none
  | popBack => if vs = [] then none else some vs.dropLast
  | erase index =>
      if index < vs.length then some (vs.take index ++ vs.drop (index + 1)) else none
  | eraseRange first last =>
      if first ≤ last ∧ last ≤ vs.length then some (vs.take first ++ vs.drop last) else none
  | clear => some []
  | reserve _ => some vs
  | resize n => some (resized n default vs)
  | resizeValue n arg => (value arg).map fun v => resized n v vs
  | assignList args => args.mapM value

def Op.plain : Op T → Option (List (Option (PlainList T)))
  | create N args => do
      let items ← args.mapM (Operand.value? lists none)
      return lists ++ [some ⟨N, items⟩]
  | createCopy N k => do
      let q ← lists[k]?.join
      return lists ++ [some ⟨N, q.items⟩]
  | createMove N k => do
      let q ← lists[k]?.join
      return lists.set k (some { q with items := [] }) ++ [some ⟨N, q.items⟩]
  | destruct k => do
      let _ ← lists[k]?.join
      return lists.set k none
  | change k c => do
      let p ← lists[k]?.join
      let items ← c.plain default (Operand.value? lists (some k)) p.items
      return lists.set k (some { p with items := items })
  | swap k l => do
      let p ← lists[k]?.join
      let q ← lists[l]?.join
      return (lists.set k (some { p with items := q.items })).set l
        (some { q with items := p.items })
  | copyAssign k l => do
      let p ← lists[k]?.join
      let q ← lists[l]?.join
      return lists.set k (some { p with items := q.items })
  | moveAssign k l => do
      let p ← lists[k]?.join
      let q ← lists[l]?.join
      return if k = l then lists
        else (lists.set k (some { p with items := q.items })).set l
          (some { q with items := [] })

def plainAll : List (Op T) → List (Option (PlainList T)) → Option (List (Option (PlainList T)))
  | [], lists => some lists
  | op :: ops, lists => (op.plain default lists).bind (plainAll ops)

/-- The number of elements that an operation needs room for. -/
def Change.needs (size : Nat) : Change T → Nat
  | pushBack _ | insert _ _ => size + 1
  | append args | insertRange _ args => size + args.length
  | insertCopies _ count _ => size + count
  | reserve n | resize n | resizeValue n _ => n
  | assignList args => args.length
  | _ => 0

/-- The number of items of a list that is there. -/
def sizeOf (k : Nat) : Nat := (lists[k]?.join.map fun p => p.items.length).getD 0

def Op.needs : Op T → Nat
  | create N args => max N args.length
  | createCopy N k | createMove N k => max N (sizeOf lists k)
  | destruct _ => 0
  | change k c => c.needs (sizeOf lists k)
  | swap k l => max (sizeOf lists k) (sizeOf lists l)
  | copyAssign _ l | moveAssign _ l => sizeOf lists l

/-- A request for copies does not overflow `size_type`. -/
def Op.InRange : Op T → Prop
  | change k (.insertCopies _ count _) => count ≠ 0 → sizeOf lists k + count < 2 ^ 64
  | _ => True

end Lists

end Lorelei.Support.VarSizeArray
