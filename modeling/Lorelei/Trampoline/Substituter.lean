import Lorelei.Trampoline.Callback

/-!
# The substitutions of one call

The callbacks among the arguments of a proc are a tree: a node has callback members,
and members that are nodes themselves, held by value or behind a pointer.
`CallbackSubstituter` emits code that walks the tree before the call and initialises a
`CallbackContext` at each callback it reaches, and code that walks the tree again after
the call and finishes the contexts.

Both walks go the same way, children before callbacks and both in the order of their
names, so the contexts of a slot that is reached twice are finished in the order in
which they were initialised.
-/

namespace Lorelei.Trampoline

open ByteMemory

variable {κ : Type}

/-! ## Trees -/

/-- `CallbackTree::Reach`. -/
inductive Reach where
  | byValue | byPointer
deriving DecidableEq

/-- A callback member: its offset in the node, and the instance of
`allocCallbackTrampoline` for its type. -/
structure Callback (κ : Type) where
  offset : Word
  allocator : κ

mutual

/-- `CallbackTree`, with the members in the order of their names. -/
inductive CallbackTree (κ : Type) where
  | node (reach : Reach) (children : Children κ) (callbacks : List (Callback κ))

/-- The members of a node that are nodes, each with its offset. -/
inductive Children (κ : Type) where
  | nil
  | cons (offset : Word) (child : CallbackTree κ) (rest : Children κ)

end

def CallbackTree.reach : CallbackTree κ → Reach
  | .node reach _ _ => reach

mutual

/-- The number of contexts in the struct `emitContextStruct` declares for a node. -/
def CallbackTree.size : CallbackTree κ → Nat
  | .node _ children callbacks => children.size + callbacks.length

def Children.size : Children κ → Nat
  | .nil => 0
  | .cons _ child rest => child.size + rest.size

end

/-- `auto p = [&]member; if (p)`: where the walk goes on, if it does. -/
def enter (m : Memory) (reach : Reach) (member : Word) : Option Word :=
  match reach with
  | .byValue => some member
  | .byPointer => if load64 m member = 0 then none else some (load64 m member)

/-! ## The emitted code -/

/-- What the emitted code of a proc refers to: whose callbacks they are, `isHostAddress`,
the instances of `allocCallbackTrampoline`, and where `mmap` puts their tables. -/
structure Proc (κ : Type) where
  isGuest : Bool
  isHostAddress : Word → Bool
  handler : κ → Handler
  place : (k : κ) → Mapping (handler k).count

/-- `ctx.init<isGuest>((void *&) slot, allocCallbackTrampoline<...>)`. -/
def Proc.init [DecidableEq κ] (P : Proc κ) (w : World κ) (v : Word × κ) :
    Option (CallbackContext × World κ) :=
  CallbackContext.init P.isGuest P.isHostAddress (World.alloc P.handler v.2 (P.place v.2)) w v.1

/-- One `init` after the other. -/
def Proc.initAll [DecidableEq κ] (P : Proc κ) (w : World κ) :
    List (Word × κ) → Option (List CallbackContext × World κ)
  | [] => some ([], w)
  | v :: vs => do
      let (ctx, w) ← P.init w v
      let (ctxs, w) ← P.initAll w vs
      return (ctx :: ctxs, w)

/-- One `fini` after the other. -/
def finiAll (w : World κ) (ctxs : List CallbackContext) : World κ :=
  ctxs.foldl (fun w ctx => ctx.fini w) w

/-- The slots of the callback members of the node at `val`. -/
def slotsAt (val : Word) (callbacks : List (Callback κ)) : List (Word × κ) :=
  callbacks.map fun c => (val + c.offset, c.allocator)

mutual

/-- The code of `emitInit`, run for the node at `val`.  It returns the contexts in the
order in which the context struct declares them. -/
def CallbackTree.runInit [DecidableEq κ] (P : Proc κ) (w : World κ) (val : Word) :
    CallbackTree κ → Option (List CallbackContext × World κ)
  | .node _ children callbacks => do
      let (ctxs, w) ← children.runInit P w val
      let (ctxs', w) ← P.initAll w (slotsAt val callbacks)
      return (ctxs ++ ctxs', w)

def Children.runInit [DecidableEq κ] (P : Proc κ) (w : World κ) (val : Word) :
    Children κ → Option (List CallbackContext × World κ)
  | .nil => some ([], w)
  | .cons offset child rest => do
      let (ctxs, w) ← match enter w.mem child.reach (val + offset) with
        | some p => child.runInit P w p
        | none => some (List.replicate child.size {}, w)
      let (ctxs', w) ← rest.runInit P w val
      return (ctxs ++ ctxs', w)

end

mutual

/-- The code of `emitFini`, run for the node at `val` with the contexts of its struct. -/
def CallbackTree.runFini (w : World κ) (val : Word) (ctxs : List CallbackContext) :
    CallbackTree κ → World κ
  | .node _ children callbacks =>
      let w := children.runFini w val ctxs
      finiAll w ((ctxs.drop children.size).take callbacks.length)

def Children.runFini (w : World κ) (val : Word) (ctxs : List CallbackContext) :
    Children κ → World κ
  | .nil => w
  | .cons offset child rest =>
      let w := match enter w.mem child.reach (val + offset) with
        | some p => child.runFini w p ctxs
        | none => w
      rest.runFini w val (ctxs.drop child.size)

end

/-! ## What a walk reaches -/

mutual

/-- The slots a walk reaches, in its order. -/
def CallbackTree.visits (m : Memory) (val : Word) : CallbackTree κ → List (Word × κ)
  | .node _ children callbacks => children.visits m val ++ slotsAt val callbacks

def Children.visits (m : Memory) (val : Word) : Children κ → List (Word × κ)
  | .nil => []
  | .cons offset child rest =>
      (match enter m child.reach (val + offset) with
        | some p => child.visits m p
        | none => []) ++ rest.visits m val

end

mutual

/-- The pointers a walk follows or finds null. -/
def CallbackTree.pointers (m : Memory) (val : Word) : CallbackTree κ → List Word
  | .node _ children _ => children.pointers m val

def Children.pointers (m : Memory) (val : Word) : Children κ → List Word
  | .nil => []
  | .cons offset child rest =>
      (if child.reach = .byPointer then [val + offset] else []) ++
      (match enter m child.reach (val + offset) with
        | some p => child.pointers m p
        | none => []) ++ rest.pointers m val

end

/-- The call leaves every slot as it was: whatever the callee does, as long as it writes
neither the slots nor the pointers to them. -/
def CallbackTree.Undone [DecidableEq κ] (P : Proc κ) (t : CallbackTree κ) (val : Word)
    (w : World κ) : Prop :=
  ∃ ctxs w₁, t.runInit P w val = some (ctxs, w₁) ∧
    ∀ w₂ : World κ,
      (∀ v ∈ t.visits w.mem val, load64 w₂.mem v.1 = load64 w₁.mem v.1) →
      (∀ a ∈ t.pointers w.mem val, load64 w₂.mem a = load64 w₁.mem a) →
      ∀ v ∈ t.visits w.mem val, load64 (t.runFini w₂ val ctxs).mem v.1 = load64 w.mem v.1

end Lorelei.Trampoline
