import Mathlib.Logic.Relation
import Lorelei.GuestRT.ThreadCreate

/-!
# Runs of the thread creation

The parent waits once, and does not look whether the child has been there when the wait
returns.  As long as the wait returns after the child has taken the mutex, everything the
handshake is for holds in every state; after a return before that, the parent can leave
the block while the child still has to use the record.
-/

namespace Lorelei.GuestRT

open CondVar

variable {Ptr : Type}

namespace State

/-! ## Runs without an early return -/

/-- The child holds what the reentry asks for. -/
def Holds (req : ThreadCreate Ptr) (s : State Ptr) : Prop :=
  match s.child with
  | .notStarted | .readEntry => True
  | .readArg entry => entry = req.start_routine
  | .lock entry arg | .broadcast entry arg | .unlock entry arg | .invoke entry arg
  | .invoked entry arg => entry = req.start_routine ∧ arg = req.arg
  | .undefined => False

/-- The child has released the mutex. -/
def AfterUnlock (s : State Ptr) : Prop :=
  match s.child with
  | .invoke _ _ | .invoked _ _ => True
  | _ => False

/-- Where the child can be, from where the parent is. -/
def Together (rc : Int) (s : State Ptr) : Prop :=
  match s.parent with
  | .storeEntry | .storeArg | .initMutex | .lock | .initCond | .create => s.child = .notStarted
  | .wait => rc = 0 ∧ s.BeforeLock
  | .waiting => rc = 0 ∧ s.child ≠ .notStarted
  | .unlock | .destroyCond | .destroyMutex | .storeRet | .leave | .left =>
    if rc = 0 then s.AfterUnlock else s.child = .notStarted
  | .undefined => False

def mutexAt (s : State Ptr) : Mutex Thread :=
  match s.parent with
  | .storeEntry | .storeArg | .initMutex | .storeRet | .leave | .left | .undefined => .dead
  | .lock | .destroyCond | .destroyMutex => .free
  | .initCond | .create | .wait | .unlock => .held .parent
  | .waiting =>
    match s.child with
    | .broadcast _ _ | .unlock _ _ => .held .child
    | _ => .free

/-- The condition variable, and who may sleep on it. -/
def CondAt (s : State Ptr) : Prop :=
  match s.parent with
  | .create | .wait | .unlock | .destroyCond => s.info.cond = .live []
  | .waiting => s.info.cond = .live [] ∨ s.info.cond = .live [.parent] ∧ s.BeforeBroadcast
  | _ => s.info.cond = .dead

def StoredAt (req : ThreadCreate Ptr) (s : State Ptr) : Prop :=
  match s.parent with
  | .storeEntry => True
  | .storeArg => s.info.hostEntry = some req.start_routine
  | _ => s.info.hostEntry = some req.start_routine ∧ s.info.hostArg = some req.arg

/-- What holds as long as the wait does not return early. -/
structure Inv (req : ThreadCreate Ptr) (rc : Int) (s : State Ptr) : Prop where
  holds : s.Holds req
  together : s.Together rc
  mutex : s.info.mutex = s.mutexAt
  cond : s.CondAt
  stored : s.StoredAt req

variable {req : ThreadCreate Ptr} {rc : Int} {s s' : State Ptr}

theorem inv_initial (req : ThreadCreate Ptr) (rc : Int) : (initial : State Ptr).Inv req rc where
  holds := trivial
  together := rfl
  mutex := rfl
  cond := rfl
  stored := trivial

theorem Inv.parentStep (inv : s.Inv req rc)
    (h : s.parentStep req rc = some s') (early : ¬ s.Early s') : s'.Inv req rc := by
  obtain ⟨p, c, ⟨m, cv, e, a⟩, r⟩ := s
  obtain ⟨holds, together, mutex, cond, stored⟩ := inv
  cases p with
  | storeEntry | storeArg | initMutex | lock | initCond =>
    cases together
    cases mutex
    cases cond
    cases h
    exact ⟨trivial, rfl, rfl, rfl, by simp_all [StoredAt]⟩
  | create =>
    cases together
    cases mutex
    cases cond
    simp only [State.parentStep] at h
    split at h
    · cases h
      exact ⟨trivial, ⟨‹_›, trivial⟩, rfl, rfl, stored⟩
    · cases h
      exact ⟨trivial, by simp [Together, *], rfl, rfl, stored⟩
  | wait =>
    cases mutex
    cases cond
    cases h
    obtain ⟨hrc, hbefore⟩ := together
    cases c with
    | readEntry | readArg | lock =>
      exact ⟨holds, ⟨hrc, by simp⟩, rfl, .inr ⟨rfl, trivial⟩, stored⟩
    | notStarted | broadcast | unlock | invoke | invoked | undefined => cases hbefore
  | waiting =>
    simp only [State.parentStep] at h
    split at h
    · cases h
    · rename_i awake
      obtain ⟨hrc, hstarted⟩ := together
      obtain cond | ⟨cond, -⟩ := cond
      · cases cond
        cases c with
        | readEntry | readArg | lock =>
          cases mutex
          cases h
          exact absurd ⟨rfl, rfl, trivial⟩ early
        | broadcast | unlock =>
          cases mutex
          cases h
        | invoke | invoked =>
          cases mutex
          cases h
          exact ⟨holds, by simp [Together, hrc, AfterUnlock], rfl, rfl, stored⟩
        | notStarted => exact absurd rfl hstarted
        | undefined => cases holds
      · cases cond
        exact absurd (by simp) awake
  | unlock | destroyCond | destroyMutex =>
    cases mutex
    cases cond
    cases h
    exact ⟨holds, together, rfl, rfl, stored⟩
  | storeRet | leave =>
    cases h
    exact ⟨holds, together, mutex, cond, stored⟩
  | left | undefined => cases h

/-- Where the parent is while the child still uses the record. -/
theorem Together.parent_eq (h : s.Together rc) (hchild : s.child ≠ .notStarted)
    (huses : ¬ s.AfterUnlock) : s.parent = .wait ∧ s.BeforeLock ∨ s.parent = .waiting := by
  obtain ⟨p, c, info, r⟩ := s
  cases p with
  | wait => exact .inl ⟨rfl, h.2⟩
  | waiting => exact .inr rfl
  | undefined => cases h
  | storeEntry | storeArg | initMutex | lock | initCond | create => exact absurd h hchild
  | unlock | destroyCond | destroyMutex | storeRet | leave | left =>
    simp only [Together] at h
    split at h
    · exact absurd h huses
    · exact absurd h hchild

theorem Inv.childStep (inv : s.Inv req rc) (h : s.childStep = some s') : s'.Inv req rc := by
  have hparent := inv.together.parent_eq
  obtain ⟨p, c, ⟨m, cv, e, a⟩, r⟩ := s
  obtain ⟨holds, together, mutex, cond, stored⟩ := inv
  cases c with
  | notStarted => cases h
  | readEntry =>
    obtain ⟨hp, -⟩ | hp := hparent (by simp) (by simp [AfterUnlock])
    · cases hp
      obtain ⟨rfl, rfl⟩ := stored
      cases h
      exact ⟨rfl, together, mutex, cond, rfl, rfl⟩
    · cases hp
      obtain ⟨rfl, rfl⟩ := stored
      cases h
      exact ⟨rfl, ⟨together.1, by simp⟩, mutex, cond, rfl, rfl⟩
  | readArg entry =>
    obtain ⟨hp, -⟩ | hp := hparent (by simp) (by simp [AfterUnlock])
    · cases hp
      obtain ⟨rfl, rfl⟩ := stored
      cases h
      exact ⟨⟨holds, rfl⟩, together, mutex, cond, rfl, rfl⟩
    · cases hp
      obtain ⟨rfl, rfl⟩ := stored
      cases h
      exact ⟨⟨holds, rfl⟩, ⟨together.1, by simp⟩, mutex, cond, rfl, rfl⟩
  | lock entry arg =>
    obtain ⟨hp, -⟩ | hp := hparent (by simp) (by simp [AfterUnlock])
    · cases hp
      cases mutex
      cases h
    · cases hp
      cases mutex
      cases h
      exact ⟨holds, ⟨together.1, by simp⟩, rfl, cond, stored⟩
  | broadcast entry arg =>
    obtain ⟨-, hbefore⟩ | hp := hparent (by simp) (by simp [AfterUnlock])
    · cases hbefore
    · cases hp
      cases mutex
      obtain cond | ⟨cond, -⟩ := cond
      · cases cond
        cases h
        exact ⟨holds, ⟨together.1, by simp⟩, rfl, .inl rfl, stored⟩
      · cases cond
        cases h
        exact ⟨holds, ⟨together.1, by simp⟩, rfl, .inl rfl, stored⟩
  | unlock entry arg =>
    obtain ⟨-, hbefore⟩ | hp := hparent (by simp) (by simp [AfterUnlock])
    · cases hbefore
    · cases hp
      cases mutex
      obtain cond | ⟨-, hbefore⟩ := cond
      · cases h
        exact ⟨holds, ⟨together.1, by simp⟩, rfl, .inl cond, stored⟩
      · cases hbefore
  | invoke entry arg =>
    cases h
    cases p with
    | wait => exact absurd together.2 id
    | undefined => cases together
    | storeEntry | storeArg | initMutex | lock | initCond | create => cases together
    | waiting =>
      obtain cond | ⟨-, hbefore⟩ := cond
      · exact ⟨holds, ⟨together.1, by simp⟩, mutex, .inl cond, stored⟩
      · cases hbefore
    | unlock | destroyCond | destroyMutex | storeRet | leave | left =>
      exact ⟨holds, by simpa [Together, AfterUnlock] using together, mutex, cond, stored⟩
  | invoked | undefined => cases h

theorem Inv.wakeUp (inv : s.Inv req rc) (h : s.wakeUp = some s') : s'.Inv req rc := by
  obtain ⟨p, c, ⟨m, cv, e, a⟩, r⟩ := s
  obtain ⟨holds, together, mutex, cond, stored⟩ := inv
  simp only [State.wakeUp] at h
  split at h
  · rename_i hasleep
    obtain ⟨hp, hasleep⟩ := hasleep
    cases hp
    cases h
    obtain cond | ⟨cond, -⟩ := cond
    · cases cond
      cases hasleep
    · cases cond
      exact ⟨holds, together, mutex, .inl rfl, stored⟩
  · cases h

theorem Inv.timely (inv : s.Inv req rc) (h : s.Timely req rc s') : s'.Inv req rc := by
  obtain ⟨⟨turn, h⟩, early⟩ := h
  cases turn with
  | parent => exact inv.parentStep h early
  | child => exact inv.childStep h
  | spurious => exact inv.wakeUp h

theorem Inv.run (inv : s.Inv req rc)
    (h : Relation.ReflTransGen (Timely req rc) s s') : s'.Inv req rc := by
  induction h with
  | refl => exact inv
  | tail _ h ih => exact ih.timely h

/-! ### Nothing goes wrong in the states of such a run -/

theorem Inv.copied_of_left (inv : s.Inv req rc)
    (hleft : s.parent = .left) (hrc : rc = 0) : s.copied = some (req.start_routine, req.arg) := by
  obtain ⟨p, c, info, r⟩ := s
  have together := inv.together
  have holds := inv.holds
  cases hleft
  simp only [Together, if_pos hrc] at together
  cases c with
  | invoke | invoked =>
    obtain ⟨rfl, rfl⟩ := holds
    rfl
  | notStarted | readEntry | readArg | lock | broadcast | unlock | undefined => cases together

theorem Inv.child_ne_undefined (inv : s.Inv req rc) : s.child ≠ .undefined := by
  intro h
  have holds := inv.holds
  simp [Holds, h] at holds

theorem Inv.beforeBroadcast_of_asleep
    (inv : s.Inv req rc) (hp : s.parent = .waiting) (hasleep : .parent ∈ s.info.cond.asleep) :
    s.BeforeBroadcast := by
  have cond := inv.cond
  simp only [CondAt, hp] at cond
  obtain cond | ⟨-, hbefore⟩ := cond
  · simp [cond] at hasleep
  · exact hbefore

theorem Inv.step_of_waiting (inv : s.Inv req rc)
    (hp : s.parent = .waiting) : ∃ turn ≠ Turn.spurious, (s.step req rc turn).isSome := by
  have hbefore := inv.beforeBroadcast_of_asleep hp
  obtain ⟨p, c, ⟨m, cv, e, a⟩, r⟩ := s
  obtain ⟨holds, together, mutex, cond, stored⟩ := inv
  cases hp
  cases c with
  | notStarted => exact absurd rfl together.2
  | readEntry | readArg | lock =>
    cases mutex
    obtain ⟨rfl, rfl⟩ := stored
    exact ⟨.child, by simp, rfl⟩
  | broadcast | unlock =>
    cases mutex
    obtain cond | ⟨cond, -⟩ := cond
    · cases cond
      exact ⟨.child, by simp, rfl⟩
    · cases cond
      exact ⟨.child, by simp, rfl⟩
  | invoke => exact ⟨.child, by simp, rfl⟩
  | invoked =>
    cases mutex
    obtain cond | ⟨-, hbefore⟩ := cond
    · cases cond
      exact ⟨.parent, by simp, rfl⟩
    · cases hbefore
  | undefined => cases holds

theorem Inv.safe (inv : s.Inv req rc) : s.Safe req rc where
  copied_of_left := inv.copied_of_left
  child_ne_undefined := inv.child_ne_undefined
  beforeBroadcast_of_asleep := inv.beforeBroadcast_of_asleep
  step_of_waiting := inv.step_of_waiting

/-! ## An early return

After it the parent alone can leave the block, with the child still before the lock. -/

theorem childTo_parent {next : ChildAt Ptr}
    {outcome : Outcome (NewThreadInfo Ptr)} (h : s.childTo next outcome = some s') :
    s'.parent = s.parent := by
  cases outcome with
  | done info =>
    cases h
    rfl
  | blocks => cases h
  | undefined =>
    cases h
    rfl

theorem childRead_parent {field : NewThreadInfo Ptr → Option Ptr}
    {next : Ptr → ChildAt Ptr} (h : s.childRead field next = some s') : s'.parent = s.parent := by
  simp only [childRead] at h
  split at h
  · exact childTo_parent h
  · cases h
    rfl

/-- The child's steps leave the parent where it is. -/
theorem childStep_parent (h : s.childStep = some s') : s'.parent = s.parent := by
  simp only [childStep] at h
  split at h
  all_goals first
    | exact childRead_parent h
    | exact childTo_parent h
    | cases h <;> rfl

theorem wakeUp_parent (h : s.wakeUp = some s') : s'.parent = s.parent := by
  simp only [wakeUp] at h
  split at h
  · cases h
    rfl
  · cases h

/-- The parent has returned from the wait, with the mutex. -/
structure Returned (s : State Ptr) : Prop where
  parent : s.parent = .unlock
  mutex : s.info.mutex = .held .parent
  cond : s.info.cond = .live []

theorem Inv.returned (inv : s.Inv req rc) (h : s.Step req rc s') (early : s.Early s') :
    s'.Returned ∧ s'.BeforeLock ∧ rc = 0 := by
  obtain ⟨turn, h⟩ := h
  obtain ⟨hp, hp', hbefore⟩ := early
  have hmoved : s'.parent ≠ s.parent := by simp [hp, hp']
  cases turn with
  | parent =>
    obtain ⟨p, c, ⟨m, cv, e, a⟩, r⟩ := s
    obtain ⟨holds, together, mutex, cond, stored⟩ := inv
    cases hp
    simp only [step, State.parentStep] at h
    split at h
    · cases h
    · rename_i awake
      have hcv : cv = .live [] := by
        obtain cond | ⟨cond, -⟩ := cond
        · exact cond
        · cases cond
          exact absurd (by simp) awake
      have hm : m = .free := by
        cases c with
        | readEntry | readArg | lock => exact mutex
        | notStarted | broadcast | unlock | invoke | invoked | undefined => cases hbefore
      cases hcv
      cases hm
      cases h
      exact ⟨⟨rfl, rfl, rfl⟩, hbefore, together.1⟩
  | child => exact absurd (childStep_parent h) hmoved
  | spurious => exact absurd (wakeUp_parent h) hmoved

theorem timely_parent
    (h : s.parentStep req rc = some s') (hp : s.parent ≠ .waiting) : s.Timely req rc s' :=
  ⟨⟨.parent, h⟩, fun early => hp early.1⟩

/-- The parent's steps out of the block, the child taking none. -/
theorem Returned.leaves (req : ThreadCreate Ptr) (rc : Int) {s : State Ptr} (h : s.Returned) :
    ∃ s', Relation.ReflTransGen (Timely req rc) s s' ∧ s'.parent = .left ∧ s'.child = s.child := by
  obtain ⟨p, c, ⟨m, cv, e, a⟩, r⟩ := s
  obtain ⟨hp, hm, hc⟩ := h
  cases hp
  cases hm
  cases hc
  have h₁ : Timely req rc ⟨.unlock, c, ⟨.held .parent, .live [], e, a⟩, r⟩
      ⟨.destroyCond, c, ⟨.free, .live [], e, a⟩, r⟩ := timely_parent rfl (by simp)
  have h₂ : Timely req rc ⟨.destroyCond, c, ⟨.free, .live [], e, a⟩, r⟩
      ⟨.destroyMutex, c, ⟨.free, .dead, e, a⟩, r⟩ := timely_parent rfl (by simp)
  have h₃ : Timely req rc ⟨.destroyMutex, c, ⟨.free, .dead, e, a⟩, r⟩
      ⟨.storeRet, c, ⟨.dead, .dead, e, a⟩, r⟩ := timely_parent rfl (by simp)
  have h₄ : Timely req rc ⟨.storeRet, c, ⟨.dead, .dead, e, a⟩, r⟩
      ⟨.leave, c, ⟨.dead, .dead, e, a⟩, some rc⟩ := timely_parent rfl (by simp)
  have h₅ : Timely req rc ⟨.leave, c, ⟨.dead, .dead, e, a⟩, some rc⟩
      ⟨.left, c, ⟨.dead, .dead, e, a⟩, some rc⟩ := timely_parent rfl (by simp)
  exact ⟨_, .head h₁ (.head h₂ (.head h₃ (.head h₄ (.single h₅)))), rfl, rfl⟩

/-- A child that has yet to take the mutex does so when the block has been left. -/
theorem exists_not_safe_of_left (hleft : s.parent = .left) (hbefore : s.BeforeLock) :
    ∃ s', Relation.ReflTransGen (Timely req 0) s s' ∧ ¬ s'.Safe req 0 := by
  cases hc : s.child with
  | readEntry | readArg =>
    refine ⟨s, .refl, fun safe => ?_⟩
    have hcopied := safe.copied_of_left hleft rfl
    simp [copied, hc] at hcopied
  | lock entry arg =>
    have hstep : s.childStep = some { s with child := .undefined } := by
      simp [childStep, hc, access, hleft, childTo]
    refine ⟨{ s with child := .undefined }, .single ⟨⟨.child, hstep⟩, ?_⟩, fun safe => ?_⟩
    · rintro ⟨hwaiting, -⟩
      simp [hleft] at hwaiting
    · exact safe.child_ne_undefined rfl
  | notStarted | broadcast | unlock | invoke | invoked | undefined =>
    simp [BeforeLock, hc] at hbefore

theorem Inv.exists_not_safe_of_early
    (inv : s.Inv req rc) (h : s.Step req rc s') (early : s.Early s') :
    ∃ s'', Relation.ReflTransGen (Timely req rc) s' s'' ∧ ¬ s''.Safe req rc := by
  obtain ⟨returned, hbefore, rfl⟩ := inv.returned h early
  obtain ⟨left, hleaves, hleft, hchild⟩ := returned.leaves req 0
  have hbefore' : left.BeforeLock := by simpa [BeforeLock, hchild] using hbefore
  obtain ⟨s'', hrun, hsafe⟩ := exists_not_safe_of_left hleft hbefore'
  exact ⟨s'', hleaves.trans hrun, hsafe⟩

/-! ## The handshake -/

theorem Inv.timely_iff (inv : s.Inv req rc)
    {trace : List (State Ptr)} (run : (s :: trace).IsChain (Step req rc)) :
    (s :: trace).IsChain (Timely req rc) ↔
      ∀ t ∈ s :: trace, ∀ t', Relation.ReflTransGen (Timely req rc) t t' → t'.Safe req rc := by
  induction trace generalizing s with
  | nil =>
    refine ⟨fun _ t ht t' hrun => ?_, fun _ => .singleton s⟩
    obtain rfl := List.mem_singleton.mp ht
    exact (inv.run hrun).safe
  | cons s' trace ih =>
    obtain ⟨hstep, run⟩ := List.isChain_cons_cons.mp run
    rw [List.isChain_cons_cons]
    constructor
    · rintro ⟨htimely, htrace⟩ t ht t' hrun
      obtain rfl | ht := List.mem_cons.mp ht
      · exact (inv.run hrun).safe
      · exact (ih (inv.timely htimely) run).mp htrace t ht t' hrun
    · intro hsafe
      have htimely : s.Timely req rc s' := by
        refine ⟨hstep, fun early => ?_⟩
        obtain ⟨t', hrun, hbad⟩ := inv.exists_not_safe_of_early hstep early
        exact hbad (hsafe s' (by simp) t' hrun)
      refine ⟨htimely, (ih (inv.timely htimely) run).mpr fun t ht => ?_⟩
      exact hsafe t (List.mem_cons_of_mem s ht)

/-- A run is over after twenty steps.  What the handshake is for holds in each of its
states, and however the run goes on from there without another early return, exactly if
its own wait does not return before the child has taken the mutex. -/
theorem timely_iff_safe (req : ThreadCreate Ptr) (rc : Int) {trace : List (State Ptr)}
    (run : (initial :: trace).IsChain (Step req rc)) :
    trace.length ≤ 20 ∧ ((initial :: trace).IsChain (Timely req rc) ↔
      ∀ s ∈ initial :: trace, ∀ s', Relation.ReflTransGen (Timely req rc) s s' →
        s'.Safe req rc) :=
  ⟨length_le_remaining run, (inv_initial req rc).timely_iff run⟩

/-- The states on the way, up to the first turn that is not possible. -/
def visited (req : ThreadCreate Ptr) (rc : Int) (s : State Ptr) : List Turn → List (State Ptr)
  | [] => []
  | turn :: turns =>
    match s.step req rc turn with
    | some s' => s' :: s'.visited req rc turns
    | none => []

theorem isChain_visited (req : ThreadCreate Ptr) (rc : Int) (s : State Ptr) (turns : List Turn) :
    (s :: s.visited req rc turns).IsChain (Step req rc) := by
  induction turns generalizing s with
  | nil => exact .singleton s
  | cons turn turns ih =>
    simp only [visited]
    split
    · rename_i s' hstep
      exact List.isChain_cons_cons.mpr ⟨⟨turn, hstep⟩, ih s'⟩
    · exact .singleton s

/-- The child copies the pointers, but the parent wakes by itself before the child has the
mutex. -/
def earlyTurns : List Turn :=
  List.replicate 7 .parent ++ [.child, .child, .spurious] ++ List.replicate 4 .parent ++ [.child]

/-- The parent sleeps until the child has broadcast. -/
def wholeTurns : List Turn :=
  List.replicate 7 .parent ++ List.replicate 5 .child ++ List.replicate 6 .parent ++ [.child]

theorem timely_iff_safe_whole : ((initial : State Nat).visited ⟨1, 2⟩ 0 wholeTurns).length = 19 ∧
    ((initial :: initial.visited ⟨1, 2⟩ 0 wholeTurns).IsChain
        (Timely (⟨1, 2⟩ : ThreadCreate Nat) 0) ↔
      ∀ s ∈ initial :: initial.visited ⟨1, 2⟩ 0 wholeTurns,
        ∀ s', Relation.ReflTransGen (Timely ⟨1, 2⟩ 0) s s' → s'.Safe ⟨1, 2⟩ 0) :=
  ⟨rfl, (timely_iff_safe ⟨1, 2⟩ 0 (isChain_visited ⟨1, 2⟩ 0 initial wholeTurns)).2⟩

/-- The child locks a mutex that the parent has destroyed. -/
theorem not_safe : ¬ ∀ trace, (initial :: trace).IsChain (Step (⟨1, 2⟩ : ThreadCreate Nat) 0) →
      ∀ s ∈ trace, s.Safe ⟨1, 2⟩ 0 := by
  intro h
  have hgone : (⟨.storeRet, .undefined, ⟨.dead, .dead, some 1, some 2⟩, none⟩ : State Nat) ∈
      initial.visited ⟨1, 2⟩ 0 earlyTurns := by decide
  exact (h _ (isChain_visited ⟨1, 2⟩ 0 initial earlyTurns) _ hgone).child_ne_undefined rfl

end State

end Lorelei.GuestRT
