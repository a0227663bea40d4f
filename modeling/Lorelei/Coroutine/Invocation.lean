import Mathlib.Computability.StateTransition

/-!
# Host invocations on coroutines, and the guest loop that drives them

The model of one guest thread calling host functions that call back into the
guest: `GuestClient::invokeFunction` on the guest side, `LoreCommonHostEntry` in
the middle, and `Invocation::invoke` / `resume` / `reenter` /
`HostExecContext::invocationEntry` on the host side.

A host function runs on a coroutine.  When it has to call back it *suspends*:
`Invocation::reenter` leaves its arguments in a variable of the loop that started
the invocation and switches to the one saved main host state.  The loop then
services the reentry on the guest side and resumes the invocation.  What is
nested on paper is therefore a flat loop over a shared stack of invocations, and
`Coroutine/Simulation.lean` shows that it still runs every call tree the way
plain recursion would.

## What is modelled

* A call tree is given by what each host function and each guest callback does,
  as `HostBody` and `GuestBody`; a suspended function is the rest of its body.
* A context switch saves and restores a context exactly: a `RegState` holds where
  its coroutine stopped (`Resumption`) and its stack pointer.  What the assembly
  saves is the subject of `Coroutine/Switch.lean`.
* The two locals `ra` and `ret` of an `invokeFunction` frame live in memory at the
  frame's address, since the host writes them through pointers.  A frame's address
  is the height of the guest stack below it, so a later frame may reuse it.
* A failed `assert` stops the thread in `Control.failed`.
-/

namespace Lorelei.Coroutine

/-- How a host function is invoked (`ClientCallingConvention`). -/
inductive ClientCallingConvention where
  | standard | standardCallback | format | threadEntry
deriving DecidableEq, Repr

/-- How a guest function is invoked by a reentry (`ServerReentryConvention`). -/
inductive ServerReentryConvention where
  | standard | standardCallback | format | threadCreate | threadExit
deriving DecidableEq, Repr

variable {α β : Type}

mutual

/-- What a host function still does: return, or call back into the guest and go
on.  `α` names host functions and `β` guest functions. -/
inductive HostBody (α β : Type) where
  | ret
  | reenter (conv : ServerReentryConvention) (g : β) (callback : GuestBody α β)
      (rest : HostBody α β)

/-- What a guest function still does: return, or call a host function and go on. -/
inductive GuestBody (α β : Type) where
  | ret
  | invoke (conv : ClientCallingConvention) (f : α) (host : HostBody α β)
      (rest : GuestBody α β)

end

/-- The arguments of `invokeFunction`: the host function to run. -/
structure InvocationArguments (α β : Type) where
  conv : ClientCallingConvention
  proc : α
  body : HostBody α β

/-- The arguments of one reentry: the guest function to run.  `serial` tells the
reentries of a run apart. -/
structure ReentryArguments (α β : Type) where
  serial : Nat
  conv : ServerReentryConvention
  proc : β
  body : GuestBody α β

/-- Where a saved context goes on when it is switched to. -/
inductive Resumption (α β : Type) where
  /-- In `Invocation::invoke` or `resume`, called by `LoreCommonHostEntry` with the
  out-pointer `ret`. -/
  | driver (ret : Nat)
  /-- In `Invocation::reenter`, called by the host function `f` of the invocation
  whose own `RegState` is at `self`. -/
  | reentering (self : Int) (f : α) (rest : HostBody α β)

/-- The part of `RegState` that the C++ code reads, and where it resumes. -/
structure RegState (α β : Type) where
  sp : Int
  resumption : Resumption α β

/-- `HostExecContext::InvocationInfo`: the loop variable a reentry is announced in,
and the saved state of the suspended invocation. -/
structure InvocationInfo where
  raPtr : Nat
  hostState : Int
deriving DecidableEq, Repr

/-- The calls, returns and transfers of a run, in order. -/
inductive Event (α β : Type) where
  | hostCall (f : α)
  | hostReturn (f : α)
  | guestCall (g : β)
  | guestReturn (g : β)
  /-- The loop at `frame` enters an invocation. -/
  | entered (frame : Nat)
  /-- An invocation starts, with its state at `self` and its reentries announced to
  the loop at `frame`. -/
  | started (self : Int) (frame : Nat)
  /-- The invocation whose state is at `self` suspends at the reentry `serial`. -/
  | issued (self : Int) (serial : Nat)
  /-- Control is back in the driver called by the loop at `frame`. -/
  | switchedBack (frame : Nat)
  /-- The loop at `frame` services the reentry `serial`. -/
  | delivered (frame serial : Nat)
  /-- The loop at `frame` resumes the last invocation. -/
  | resumed (frame : Nat)
  /-- The invocation whose state is at `self` goes on. -/
  | continued (self : Int)
deriving DecidableEq, Repr

/-! ## The host execution context -/

/-- `HostExecContext`, with the last invocation first in `invocations`. -/
structure HostExecContext (α β : Type) where
  stackSize : Nat
  stackTop : Int
  invocations : List InvocationInfo
  mainHostState : Option (RegState α β)

/-- `sizeof(InvocationInfo)`: two pointers. -/
def sizeofInvocationInfo : Nat := 16

namespace HostExecContext

def invocationCount (c : HostExecContext α β) : Nat := c.invocations.length

/-- How many invocations the buffer has room for. -/
def capacity (c : HostExecContext α β) : Nat := c.stackSize / sizeofInvocationInfo

/-- `none` when the assertion `invocationCount > 0` fails. -/
def lastInvocation (c : HostExecContext α β) : Option InvocationInfo := c.invocations.head?

/-- `none` when the assertion that the buffer has room fails. -/
def pushInvocation (c : HostExecContext α β) (raPtr : Nat) (hostState : Int) :
    Option (HostExecContext α β) :=
  if c.invocationCount < c.capacity then
    some { c with invocations := ⟨raPtr, hostState⟩ :: c.invocations }
  else none

/-- `none` when the assertion `invocationCount > 0` fails. -/
def popInvocation (c : HostExecContext α β) : Option (HostExecContext α β) :=
  match c.invocations with
  | [] => none
  | _ :: rest => some { c with invocations := rest }

end HostExecContext

/-! ## The state of a thread -/

/-- The variables `ra` and `ret` of an `invokeFunction` frame. -/
structure LoopVars (α β : Type) where
  ra : Option (ReentryArguments α β)
  ret : Int

/-- Where an `invokeFunction` frame stands. -/
inductive LoopPhase where
  /-- In `invokeHost`: the `while` test comes next. -/
  | inHost
  /-- In the `switch`: `DS_ResumeFunction` comes next. -/
  | servicing
deriving DecidableEq, Repr

/-- A frame of the guest stack. -/
inductive GuestFrame (α β : Type) where
  /-- A guest function with the rest of its body. -/
  | callback (g : β) (body : GuestBody α β)
  /-- An `invokeFunction` frame. -/
  | loop (phase : LoopPhase)

/-- A request to the host runtime's common entry. -/
inductive Request (α β : Type) where
  | invokeFunction (ia : InvocationArguments α β) (raPtr ret : Nat)
  | resumeFunction (ret : Nat)

/-- What the thread executes next. -/
inductive Control (α β : Type) where
  /-- The frame on top of the guest stack. -/
  | guest
  | commonEntry (request : Request α β)
  /-- `HostExecContext::invocationEntry`, just started on a coroutine at `stack`. -/
  | invocationEntry (ia : InvocationArguments α β) (raPtr : Nat) (stack : Int)
  /-- The host function `f`, run by the invocation whose state is at `self`. -/
  | host (self : Int) (f : α) (body : HostBody α β)
  /-- `pthread_exit` has ended the thread. -/
  | exited
  /-- An assertion has failed. -/
  | failed

/-- One thread: guest stack, host context, the memory the two share, and what has
happened so far. -/
structure State (α β : Type) where
  control : Control α β
  guestStack : List (GuestFrame α β)
  ctx : HostExecContext α β
  vars : Nat → LoopVars α β
  regStates : Int → Option (RegState α β)
  nextSerial : Nat
  trace : List (Event α β)

/-- What the machine code leaves open: the stack pointer of the driver, and how far
below its `RegState` a host function has its stack pointer when it reenters. -/
structure Layout (α : Type) where
  mainSP : Int
  frameSize : α → Nat

namespace State

def log (s : State α β) (es : List (Event α β)) : State α β :=
  { s with trace := s.trace ++ es }

def fail (s : State α β) : State α β := { s with control := .failed }

/-- Set the variable `ret` of the loop at `frame`. -/
def setRet (s : State α β) (frame : Nat) (ret : Int) : State α β :=
  { s with vars := fun k => if k = frame then { s.vars k with ret := ret } else s.vars k }

/-- Set the variable `ra` of the loop at `frame`. -/
def setRa (s : State α β) (frame : Nat) (ra : ReentryArguments α β) : State α β :=
  { s with vars := fun k => if k = frame then { s.vars k with ra := some ra } else s.vars k }

/-- Store a context at `addr`. -/
def saveRegState (s : State α β) (addr : Int) (r : RegState α β) : State α β :=
  { s with regStates := fun a => if a = addr then some r else s.regStates a }

end State

/-! ## The host side -/

/-- `x & ~0xF`. -/
def alignDown (x : Int) : Int := x - x % 16

/-- Where `invocationEntry` has its `RegState state`, on a coroutine at `stack`. -/
def stateAddress (stack : Int) : Int := stack - 128

/-- Go on where the saved context `r` stopped, handing it `value`: a driver stores
the value in `*ret` and returns to the guest, a suspended `reenter` ignores it. -/
def continueAt (s : State α β) (r : Option (RegState α β)) (value : Int) : State α β :=
  match r with
  | none => s.fail
  | some ⟨_, .driver ret⟩ =>
      { (s.setRet ret value).log [.switchedBack ret] with control := .guest }
  | some ⟨_, .reentering self f rest⟩ =>
      { s.log [.continued self] with control := .host self f rest }

/-- Where `Invocation::invoke` starts the next coroutine: at the top of the buffer
when nothing is live, below the last suspended invocation otherwise. -/
def nextStack (s : State α β) : Option Int :=
  match s.ctx.lastInvocation with
  | none => some s.ctx.stackTop
  | some last => (s.regStates last.hostState).map fun r => alignDown r.sp

/-- `Invocation::invoke`: choose the stack, then `coroutine_start`. -/
def invoke (m : Layout α) (s : State α β) (ia : InvocationArguments α β) (raPtr ret : Nat) :
    State α β :=
  match nextStack s with
  | none => s.fail
  | some stack =>
      { s with
        ctx := { s.ctx with mainHostState := some ⟨m.mainSP, .driver ret⟩ }
        control := .invocationEntry ia raPtr stack }

/-- `Invocation::resume`: `coroutine_switch` from the driver to the last invocation. -/
def resume (m : Layout α) (s : State α β) (ret : Nat) : State α β :=
  match s.ctx.lastInvocation with
  | none => s.fail
  | some last =>
      continueAt { s with ctx := { s.ctx with mainHostState := some ⟨m.mainSP, .driver ret⟩ } }
        (s.regStates last.hostState) 0

/-- `Invocation::reenter`, called by the host function `f` of the invocation at
`self`: announce the reentry, then `coroutine_switch` to the driver. -/
def reenter (m : Layout α) (s : State α β) (self : Int) (f : α) (rest : HostBody α β)
    (ra : ReentryArguments α β) : State α β :=
  match s.ctx.lastInvocation with
  | none => s.fail
  | some last =>
      let saved : RegState α β := ⟨self - 1 - m.frameSize f, .reentering self f rest⟩
      continueAt ((s.setRa last.raPtr ra).saveRegState last.hostState saved) s.ctx.mainHostState 1

/-- The first half of `HostExecContext::invocationEntry`, up to the host function's
first instruction (`Invocation::invokeByConv` calls `proc` in every convention). -/
def invocationEntry (s : State α β) (ia : InvocationArguments α β) (raPtr : Nat) (stack : Int) :
    State α β :=
  match s.ctx.pushInvocation raPtr (stateAddress stack) with
  | none => s.fail
  | some ctx =>
      { s.log [.started (stateAddress stack) raPtr, .hostCall ia.proc] with
        ctx := ctx
        control := .host (stateAddress stack) ia.proc ia.body }

/-- The second half: the host function has returned.  `coroutine_start` returns 0
to the driver saved in `mainHostState`. -/
def invocationReturn (s : State α β) (f : α) : State α β :=
  match s.ctx.popInvocation with
  | none => s.fail
  | some ctx => continueAt { s.log [.hostReturn f] with ctx := ctx } ctx.mainHostState 0

/-- `LoreCommonHostEntry`: the two operations of a function call. -/
def loreCommonHostEntry (m : Layout α) (s : State α β) : Request α β → State α β
  | .invokeFunction ia raPtr ret => invoke m (s.log [.entered ret]) ia raPtr ret
  | .resumeFunction ret => resume m (s.log [.resumed ret]) ret

/-- One step of the running host function. -/
def hostStep (m : Layout α) (s : State α β) (self : Int) (f : α) : HostBody α β → State α β
  | .ret => invocationReturn s f
  | .reenter conv g callback rest =>
      reenter m { s.log [.issued self s.nextSerial] with nextSerial := s.nextSerial + 1 }
        self f rest ⟨s.nextSerial, conv, g, callback⟩

/-! ## The guest side -/

/-- The start of `GuestClient::invokeFunction`: a fresh frame, and the first call of
`invokeHost`. -/
def invokeFunction (s : State α β) (ia : InvocationArguments α β) : State α β :=
  let frame := s.guestStack.length
  { s with
    guestStack := .loop .inHost :: s.guestStack
    vars := fun k => if k = frame then ⟨none, 0⟩ else s.vars k
    control := .commonEntry (.invokeFunction ia frame frame) }

/-- The `switch` on the reentry's convention.  Every convention but `SC_ThreadExit`
runs the guest function and comes back. -/
def service (s : State α β) (frame : Nat) (ra : ReentryArguments α β)
    (below : List (GuestFrame α β)) : State α β :=
  match ra.conv with
  | .threadExit => { s.log [.delivered frame ra.serial] with control := .exited }
  | .standard | .standardCallback | .format | .threadCreate =>
      { s.log [.delivered frame ra.serial, .guestCall ra.proc] with
        guestStack := .callback ra.proc ra.body :: .loop .servicing :: below }

/-- The loop of `invokeFunction`, at its `while` test. -/
def loopTest (s : State α β) (below : List (GuestFrame α β)) : State α β :=
  let frame := below.length
  let v := s.vars frame
  if v.ret = 0 then { s with guestStack := below }
  else match v.ra with
    | some ra => if v.ret = 1 then service s frame ra below else s.fail
    | none => s.fail

/-- One step of the guest; `none` when its stack is empty. -/
def guestStep (s : State α β) : Option (State α β) :=
  match s.guestStack with
  | [] => none
  | .loop .inHost :: below => some (loopTest s below)
  | .loop .servicing :: below =>
      some { s with
        guestStack := .loop .inHost :: below
        control := .commonEntry (.resumeFunction below.length) }
  | .callback g .ret :: below => some { s.log [.guestReturn g] with guestStack := below }
  | .callback g (.invoke conv f host rest) :: below =>
      some (invokeFunction { s with guestStack := .callback g rest :: below } ⟨conv, f, host⟩)

/-- One step of the thread. -/
def step (m : Layout α) (s : State α β) : Option (State α β) :=
  match s.control with
  | .guest => guestStep s
  | .commonEntry request => some (loreCommonHostEntry m s request)
  | .invocationEntry ia raPtr stack => some (invocationEntry s ia raPtr stack)
  | .host self f body => some (hostStep m s self f body)
  | .exited | .failed => none

/-- A thread whose guest program is `body`, before its first host call. -/
def State.initial (stackSize : Nat) (stackTop : Int) (g : β) (body : GuestBody α β) :
    State α β where
  control := .guest
  guestStack := [.callback g body]
  ctx := ⟨stackSize, stackTop, [], none⟩
  vars := fun _ => ⟨none, 0⟩
  regStates := fun _ => none
  nextSerial := 0
  trace := []

end Lorelei.Coroutine
