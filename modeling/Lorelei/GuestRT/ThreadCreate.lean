import Mathlib.Data.List.Chain
import Lorelei.Lib.CondVar

/-!
# Creating a guest thread

For a reentry that asks for a thread, `invokeFunction` keeps a record on its stack,
starts `newThreadEntry` with the record's address, and waits on the record's condition
variable until the new thread has copied out what it needs.  Only then does it destroy
the mutex and the condition variable and leave the block the record lives in.

The two threads are run in every order.  A step is one access or one call of either
thread; a call that blocks takes no step.  A thread that uses the record after the
block was left, or an object that is not there, goes to `undefined`.
-/

namespace Lorelei.GuestRT

open CondVar

variable {Ptr : Type}

inductive Thread where
  | parent
  | child
deriving DecidableEq, Repr

/-- The record on the parent's stack.  Its two pointers have no value at first. -/
structure NewThreadInfo (Ptr : Type) where
  mutex : Mutex Thread
  cond : Cond Thread
  hostEntry : Option Ptr
  hostArg : Option Ptr
deriving DecidableEq, Repr

/-- What the reentry asks for. -/
structure ThreadCreate (Ptr : Type) where
  start_routine : Ptr
  arg : Ptr
deriving DecidableEq, Repr

/-- What the parent does next. -/
inductive ParentAt where
  | storeEntry
  | storeArg
  | initMutex
  | lock
  | initCond
  | create
  | wait
  /-- In the wait: asleep, or about to take the mutex again. -/
  | waiting
  | unlock
  | destroyCond
  | destroyMutex
  | storeRet
  | leave
  /-- The block that owns the record has been left. -/
  | left
  | undefined
deriving DecidableEq, Repr

/-- What the child does next, with what it has copied. -/
inductive ChildAt (Ptr : Type) where
  | notStarted
  | readEntry
  | readArg (entry : Ptr)
  | lock (entry arg : Ptr)
  | broadcast (entry arg : Ptr)
  | unlock (entry arg : Ptr)
  | invoke (entry arg : Ptr)
  /-- `invokeThreadEntry` has been called. -/
  | invoked (entry arg : Ptr)
  | undefined
deriving DecidableEq, Repr

structure State (Ptr : Type) where
  parent : ParentAt
  child : ChildAt Ptr
  info : NewThreadInfo Ptr
  ret : Option Int
deriving DecidableEq, Repr

def NewThreadInfo.onMutex (info : NewThreadInfo Ptr)
    (call : Mutex Thread → Outcome (Mutex Thread)) : Outcome (NewThreadInfo Ptr) :=
  (call info.mutex).map fun mutex => { info with mutex }

def NewThreadInfo.onCond (info : NewThreadInfo Ptr)
    (call : Cond Thread → Outcome (Cond Thread)) : Outcome (NewThreadInfo Ptr) :=
  (call info.cond).map fun cond => { info with cond }

/-- The first half of `pthread_cond_wait`. -/
def NewThreadInfo.sleep (info : NewThreadInfo Ptr) (t : Thread) : Outcome (NewThreadInfo Ptr) :=
  match info.onMutex (Mutex.unlock t) with
  | .done info => info.onCond (Cond.sleep t)
  | .blocks => .blocks
  | .undefined => .undefined

namespace State

def initial : State Ptr :=
  ⟨.storeEntry, .notStarted, ⟨.dead, .dead, none, none⟩, none⟩

def parentTo (s : State Ptr) (next : ParentAt) : Outcome (NewThreadInfo Ptr) → Option (State Ptr)
  | .done info => some { s with parent := next, info }
  | .blocks => none
  | .undefined => some { s with parent := .undefined }

def childTo (s : State Ptr) (next : ChildAt Ptr) : Outcome (NewThreadInfo Ptr) → Option (State Ptr)
  | .done info => some { s with child := next, info }
  | .blocks => none
  | .undefined => some { s with child := .undefined }

/-- The parent's next step, `rc` being what `pthread_create` returns. -/
def parentStep (req : ThreadCreate Ptr) (rc : Int) (s : State Ptr) : Option (State Ptr) :=
  match s.parent with
  | .storeEntry => s.parentTo .storeArg (.done { s.info with hostEntry := some req.start_routine })
  | .storeArg => s.parentTo .initMutex (.done { s.info with hostArg := some req.arg })
  | .initMutex => s.parentTo .lock (s.info.onMutex Mutex.init)
  | .lock => s.parentTo .initCond (s.info.onMutex (Mutex.lock .parent))
  | .initCond => s.parentTo .create (s.info.onCond Cond.init)
  | .create =>
    if rc = 0 then some { s with parent := .wait, child := .readEntry }
    else some { s with parent := .unlock }
  | .wait => s.parentTo .waiting (s.info.sleep .parent)
  | .waiting =>
    if .parent ∈ s.info.cond.asleep then none
    else s.parentTo .unlock (s.info.onMutex (Mutex.lock .parent))
  | .unlock => s.parentTo .destroyCond (s.info.onMutex (Mutex.unlock .parent))
  | .destroyCond => s.parentTo .destroyMutex (s.info.onCond Cond.destroy)
  | .destroyMutex => s.parentTo .storeRet (s.info.onMutex Mutex.destroy)
  | .storeRet => some { s with parent := .leave, ret := some rc }
  | .leave => some { s with parent := .left }
  | .left | .undefined => none

/-- What the child's access to the record does: the record is gone with its block. -/
def access (s : State Ptr) (call : NewThreadInfo Ptr → Outcome (NewThreadInfo Ptr)) :
    Outcome (NewThreadInfo Ptr) :=
  if s.parent = .left then .undefined else call s.info

def childRead (s : State Ptr) (field : NewThreadInfo Ptr → Option Ptr) (next : Ptr → ChildAt Ptr) :
    Option (State Ptr) :=
  match field s.info with
  | some value => s.childTo (next value) (s.access .done)
  | none => some { s with child := .undefined }

def childStep (s : State Ptr) : Option (State Ptr) :=
  match s.child with
  | .notStarted => none
  | .readEntry => s.childRead (·.hostEntry) .readArg
  | .readArg entry => s.childRead (·.hostArg) (.lock entry)
  | .lock entry arg => s.childTo (.broadcast entry arg) (s.access (·.onMutex (Mutex.lock .child)))
  | .broadcast entry arg => s.childTo (.unlock entry arg) (s.access (·.onCond Cond.broadcast))
  | .unlock entry arg => s.childTo (.invoke entry arg) (s.access (·.onMutex (Mutex.unlock .child)))
  | .invoke entry arg => some { s with child := .invoked entry arg }
  | .invoked _ _ | .undefined => none

/-- The wait may return though nobody has broadcast. -/
def wakeUp (s : State Ptr) : Option (State Ptr) :=
  if s.parent = .waiting ∧ .parent ∈ s.info.cond.asleep then
    some { s with info := { s.info with cond := s.info.cond.wake .parent } }
  else none

/-- Whose step it is, and the wake-up nobody asked for. -/
inductive Turn where
  | parent
  | child
  | spurious
deriving DecidableEq, Repr

def step (req : ThreadCreate Ptr) (rc : Int) (s : State Ptr) : Turn → Option (State Ptr)
  | .parent => s.parentStep req rc
  | .child => s.childStep
  | .spurious => s.wakeUp

def Step (req : ThreadCreate Ptr) (rc : Int) (s s' : State Ptr) : Prop :=
  ∃ turn, s.step req rc turn = some s'

/-! ## What the handshake is for -/

/-- What the child has copied out of the record. -/
def copied (s : State Ptr) : Option (Ptr × Ptr) :=
  match s.child with
  | .lock entry arg | .broadcast entry arg | .unlock entry arg | .invoke entry arg
  | .invoked entry arg => some (entry, arg)
  | .notStarted | .readEntry | .readArg _ | .undefined => none

/-- The child has yet to take the mutex. -/
def BeforeLock (s : State Ptr) : Prop :=
  match s.child with
  | .readEntry | .readArg _ | .lock _ _ => True
  | _ => False

/-- The child has yet to broadcast. -/
def BeforeBroadcast (s : State Ptr) : Prop :=
  match s.child with
  | .broadcast _ _ => True
  | _ => s.BeforeLock

/-- What has to hold at every moment. -/
structure Safe (req : ThreadCreate Ptr) (rc : Int) (s : State Ptr) : Prop where
  /-- A child that was started has its two pointers before the block is left. -/
  copied_of_left : s.parent = .left → rc = 0 → s.copied = some (req.start_routine, req.arg)
  /-- The child uses nothing that is gone. -/
  child_ne_undefined : s.child ≠ .undefined
  /-- The broadcast is still to come while the parent sleeps. -/
  beforeBroadcast_of_asleep :
    s.parent = .waiting → .parent ∈ s.info.cond.asleep → s.BeforeBroadcast
  /-- A run does not end in the wait. -/
  step_of_waiting : s.parent = .waiting → ∃ turn ≠ .spurious, (s.step req rc turn).isSome

/-- The wait returns before the child has taken the mutex. -/
def Early (s s' : State Ptr) : Prop :=
  s.parent = .waiting ∧ s'.parent = .unlock ∧ s.BeforeLock

/-- A step that is no such return. -/
def Timely (req : ThreadCreate Ptr) (rc : Int) (s s' : State Ptr) : Prop :=
  s.Step req rc s' ∧ ¬ s.Early s'

/-! ## The length of a run -/

end State

/-- How many steps there are left once the child has taken its own: the parent's, one for
waking up, and the child's six when it is not started yet. -/
def ParentAt.remaining : ParentAt → Nat
  | .storeEntry => 20
  | .storeArg => 19
  | .initMutex => 18
  | .lock => 17
  | .initCond => 16
  | .create => 15
  | .wait => 8
  | .waiting => 6
  | .unlock => 5
  | .destroyCond => 4
  | .destroyMutex => 3
  | .storeRet => 2
  | .leave => 1
  | .left | .undefined => 0

def ChildAt.remaining : ChildAt Ptr → Nat
  | .readEntry => 6
  | .readArg _ => 5
  | .lock _ _ => 4
  | .broadcast _ _ => 3
  | .unlock _ _ => 2
  | .invoke _ _ => 1
  | .notStarted | .invoked _ _ | .undefined => 0

@[simp] theorem ParentAt.remaining_undefined : ParentAt.undefined.remaining = 0 := rfl

@[simp] theorem ChildAt.remaining_undefined :
    (ChildAt.undefined : ChildAt Ptr).remaining = 0 := rfl

theorem NewThreadInfo.cond_onMutex {info info' : NewThreadInfo Ptr}
    {call : Mutex Thread → Outcome (Mutex Thread)} (h : info.onMutex call = .done info') :
    info'.cond = info.cond := by
  simp only [NewThreadInfo.onMutex, Outcome.map] at h
  split at h
  · cases h
    rfl
  · cases h
  · cases h

theorem NewThreadInfo.cond_onCond {info info' : NewThreadInfo Ptr}
    {call : Cond Thread → Outcome (Cond Thread)} (h : info.onCond call = .done info') :
    call info.cond = .done info'.cond := by
  simp only [NewThreadInfo.onCond, Outcome.map] at h
  split at h
  · rename_i hcall
    cases h
    exact hcall
  · cases h
  · cases h

theorem NewThreadInfo.cond_sleep {info info' : NewThreadInfo Ptr} {t : Thread}
    (h : info.sleep t = .done info') : info.cond.sleep t = .done info'.cond := by
  simp only [NewThreadInfo.sleep] at h
  split at h
  · rename_i hunlock
    rw [← cond_onMutex hunlock]
    exact cond_onCond h
  · cases h
  · cases h

namespace State

variable {req : ThreadCreate Ptr} {rc : Int} {s s' : State Ptr}

def remaining (s : State Ptr) : Nat :=
  s.parent.remaining + s.child.remaining + s.info.cond.asleep.length

theorem remaining_parentTo {next : ParentAt}
    {outcome : Outcome (NewThreadInfo Ptr)} (h : s.parentTo next outcome = some s')
    (hdone : ∀ info, outcome = .done info → next.remaining + info.cond.asleep.length <
      s.parent.remaining + s.info.cond.asleep.length)
    (hundefined : 0 < s.parent.remaining) : s'.remaining < s.remaining := by
  cases outcome with
  | done info =>
    have hlt := hdone info rfl
    cases h
    simp only [remaining]
    omega
  | blocks => cases h
  | undefined =>
    cases h
    simp only [remaining, ParentAt.remaining_undefined]
    omega

theorem remaining_childTo {next : ChildAt Ptr}
    {call : NewThreadInfo Ptr → Outcome (NewThreadInfo Ptr)}
    (h : s.childTo next (s.access call) = some s')
    (hdone : ∀ info, call s.info = .done info →
      info.cond.asleep.length ≤ s.info.cond.asleep.length)
    (hnext : next.remaining < s.child.remaining) : s'.remaining < s.remaining := by
  cases ho : s.access call with
  | done info =>
    have hcall : call s.info = .done info := by
      simp only [access] at ho
      split at ho
      · cases ho
      · exact ho
    have hle := hdone info hcall
    simp only [childTo, ho] at h
    cases h
    simp only [remaining]
    omega
  | blocks =>
    simp only [childTo, ho] at h
    cases h
  | undefined =>
    simp only [childTo, ho] at h
    cases h
    simp only [remaining, ChildAt.remaining_undefined]
    omega

theorem remaining_childRead {field : NewThreadInfo Ptr → Option Ptr}
    {next : Ptr → ChildAt Ptr} (h : s.childRead field next = some s')
    (hnext : ∀ value, (next value).remaining < s.child.remaining)
    (hpos : 0 < s.child.remaining) : s'.remaining < s.remaining := by
  simp only [childRead] at h
  split at h
  · rename_i value hvalue
    refine remaining_childTo h (fun info hinfo => ?_) (hnext value)
    cases hinfo
    exact Nat.le_refl _
  · cases h
    simp only [remaining, ChildAt.remaining_undefined]
    omega

theorem remaining_parentStep (h : s.parentStep req rc = some s') : s'.remaining < s.remaining := by
  simp only [parentStep] at h
  cases hp : s.parent with
  | storeEntry | storeArg =>
    rw [hp] at h
    refine remaining_parentTo h (fun info hinfo => ?_) (by simp [hp, ParentAt.remaining])
    cases hinfo
    simp [hp, ParentAt.remaining]
  | initMutex | lock | unlock | destroyMutex =>
    rw [hp] at h
    refine remaining_parentTo h (fun info hinfo => ?_) (by simp [hp, ParentAt.remaining])
    rw [NewThreadInfo.cond_onMutex hinfo]
    simp [hp, ParentAt.remaining]
  | waiting =>
    rw [hp] at h
    simp only at h
    split at h
    · cases h
    · refine remaining_parentTo h (fun info hinfo => ?_) (by simp [hp, ParentAt.remaining])
      rw [NewThreadInfo.cond_onMutex hinfo]
      simp [hp, ParentAt.remaining]
  | initCond =>
    rw [hp] at h
    refine remaining_parentTo h (fun info hinfo => ?_) (by simp [hp, ParentAt.remaining])
    rw [Cond.asleep_of_init (NewThreadInfo.cond_onCond hinfo)]
    simp [hp, ParentAt.remaining]
    omega
  | destroyCond =>
    rw [hp] at h
    refine remaining_parentTo h (fun info hinfo => ?_) (by simp [hp, ParentAt.remaining])
    rw [Cond.asleep_of_destroy (NewThreadInfo.cond_onCond hinfo)]
    simp [hp, ParentAt.remaining]
    omega
  | create =>
    rw [hp] at h
    simp only at h
    split at h
    · cases h
      simp only [remaining, hp, ParentAt.remaining, ChildAt.remaining]
      omega
    · cases h
      simp only [remaining, hp, ParentAt.remaining]
      omega
  | wait =>
    rw [hp] at h
    refine remaining_parentTo h (fun info hinfo => ?_) (by simp [hp, ParentAt.remaining])
    rw [Cond.asleep_of_sleep (NewThreadInfo.cond_sleep hinfo)]
    simp only [hp, ParentAt.remaining, List.length_cons]
    omega
  | storeRet | leave =>
    rw [hp] at h
    cases h
    simp [remaining, hp, ParentAt.remaining]
  | left | undefined =>
    rw [hp] at h
    cases h

theorem remaining_childStep (h : s.childStep = some s') : s'.remaining < s.remaining := by
  simp only [childStep] at h
  cases hc : s.child with
  | readEntry | readArg =>
    rw [hc] at h
    exact remaining_childRead h (fun value => by simp [hc, ChildAt.remaining])
      (by simp [hc, ChildAt.remaining])
  | lock | unlock =>
    rw [hc] at h
    refine remaining_childTo h (fun info hinfo => ?_) (by simp [hc, ChildAt.remaining])
    exact Nat.le_of_eq (by rw [NewThreadInfo.cond_onMutex hinfo])
  | broadcast =>
    rw [hc] at h
    refine remaining_childTo h (fun info hinfo => ?_) (by simp [hc, ChildAt.remaining])
    rw [Cond.asleep_of_broadcast (NewThreadInfo.cond_onCond hinfo)]
    exact Nat.zero_le _
  | invoke =>
    rw [hc] at h
    cases h
    simp [remaining, hc, ChildAt.remaining]
  | notStarted | invoked | undefined =>
    rw [hc] at h
    cases h

theorem remaining_wakeUp (h : s.wakeUp = some s') : s'.remaining < s.remaining := by
  simp only [wakeUp] at h
  split at h
  · rename_i hasleep
    have hlt := Cond.length_asleep_wake hasleep.2
    cases h
    simp only [remaining]
    omega
  · cases h

theorem Step.remaining_lt (h : s.Step req rc s') : s'.remaining < s.remaining := by
  obtain ⟨turn, h⟩ := h
  cases turn with
  | parent => exact remaining_parentStep h
  | child => exact remaining_childStep h
  | spurious => exact remaining_wakeUp h

/-- Every run comes to an end, so a thread that waits for ever is one that waits then. -/
theorem length_le_remaining {trace : List (State Ptr)} (run : (s :: trace).IsChain (Step req rc)) :
    trace.length ≤ s.remaining := by
  induction trace generalizing s with
  | nil => exact Nat.zero_le _
  | cons s' trace ih =>
    obtain ⟨hstep, run⟩ := List.isChain_cons_cons.mp run
    have hlt := hstep.remaining_lt
    have hle := ih run
    simp only [List.length_cons]
    omega

end State

end Lorelei.GuestRT
