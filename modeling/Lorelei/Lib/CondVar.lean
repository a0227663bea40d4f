/-!
# Mutexes and condition variables

What the calls on a mutex and on a condition variable do, one call at a time.  A call
returns, blocks, or is made on an object that is not there: one that was not
initialised, or that has been destroyed.  What happens then is not defined.

A wait is two steps.  The first releases the mutex and puts the thread to sleep; the
second takes the mutex again, and is possible once the thread sleeps no more.  A
broadcast wakes every thread that sleeps, and forgets nothing else: one that nobody
sleeps through is lost.  A thread may also wake by itself (`Cond.wake`).
-/

namespace CondVar

universe u v

/-- How a call ends. -/
inductive Outcome (α : Type u) where
  | done (value : α)
  | blocks
  | undefined
deriving DecidableEq, Repr

def Outcome.map {α : Type u} {β : Type v} (f : α → β) : Outcome α → Outcome β
  | .done value => .done (f value)
  | .blocks => .blocks
  | .undefined => .undefined

inductive Mutex (Thread : Type u) where
  /-- Not initialised, or destroyed. -/
  | dead
  | free
  | held (owner : Thread)
deriving DecidableEq, Repr

inductive Cond (Thread : Type u) where
  | dead
  | live (asleep : List Thread)
deriving DecidableEq, Repr

variable {Thread : Type u}

namespace Mutex

def init : Mutex Thread → Outcome (Mutex Thread)
  | .dead => .done .free
  | _ => .undefined

def lock (t : Thread) : Mutex Thread → Outcome (Mutex Thread)
  | .dead => .undefined
  | .free => .done (.held t)
  | .held _ => .blocks

/-- Only the thread that holds a mutex may unlock it. -/
def unlock [DecidableEq Thread] (t : Thread) : Mutex Thread → Outcome (Mutex Thread)
  | .held owner => if owner = t then .done .free else .undefined
  | _ => .undefined

/-- A mutex may be destroyed once nobody holds it. -/
def destroy : Mutex Thread → Outcome (Mutex Thread)
  | .free => .done .dead
  | _ => .undefined

end Mutex

namespace Cond

def init : Cond Thread → Outcome (Cond Thread)
  | .dead => .done (.live [])
  | _ => .undefined

/-- The thread sleeps from here on. -/
def sleep (t : Thread) : Cond Thread → Outcome (Cond Thread)
  | .live asleep => .done (.live (t :: asleep))
  | .dead => .undefined

def broadcast : Cond Thread → Outcome (Cond Thread)
  | .live _ => .done (.live [])
  | .dead => .undefined

/-- A condition variable may be destroyed once nobody sleeps on it. -/
def destroy : Cond Thread → Outcome (Cond Thread)
  | .live [] => .done .dead
  | _ => .undefined

def asleep : Cond Thread → List Thread
  | .live asleep => asleep
  | .dead => []

/-- The thread wakes without having been woken. -/
def wake [DecidableEq Thread] (t : Thread) : Cond Thread → Cond Thread
  | .live asleep => .live (asleep.erase t)
  | .dead => .dead

@[simp] theorem asleep_live (ts : List Thread) : (Cond.live ts).asleep = ts := rfl

@[simp] theorem asleep_dead : (Cond.dead : Cond Thread).asleep = [] := rfl

theorem asleep_of_init {c c' : Cond Thread} (h : c.init = .done c') : c'.asleep = [] := by
  cases c with
  | dead =>
    cases h
    rfl
  | live ts => cases h

theorem asleep_of_sleep {t : Thread} {c c' : Cond Thread} (h : c.sleep t = .done c') :
    c'.asleep = t :: c.asleep := by
  cases c with
  | dead => cases h
  | live ts =>
    cases h
    rfl

/-- Nobody sleeps through a broadcast. -/
theorem asleep_of_broadcast {c c' : Cond Thread} (h : c.broadcast = .done c') :
    c'.asleep = [] := by
  cases c with
  | dead => cases h
  | live ts =>
    cases h
    rfl

theorem asleep_of_destroy {c c' : Cond Thread} (h : c.destroy = .done c') : c'.asleep = [] := by
  cases c with
  | dead => cases h
  | live ts =>
    cases ts with
    | nil =>
      cases h
      rfl
    | cons t ts => cases h

theorem length_asleep_wake [DecidableEq Thread] {t : Thread} {c : Cond Thread}
    (h : t ∈ c.asleep) : (c.wake t).asleep.length < c.asleep.length := by
  cases c with
  | dead => cases h
  | live ts =>
    have hpos : 0 < ts.length := List.length_pos_of_mem h
    have hlen : (ts.erase t).length = ts.length - 1 := List.length_erase_of_mem h
    simp only [wake, asleep_live]
    omega

end Cond

end CondVar
