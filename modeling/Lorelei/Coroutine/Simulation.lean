import Lorelei.Coroutine.Invocation

/-!
# The resume loop runs call trees by recursion

`Coroutine/Invocation.lean` drives nested host invocations by a flat loop over one
stack of invocations and one saved host state.  This file shows that the flat loop
is true recursion: a thread that starts a host call runs the whole call tree below
it, in the order of direct nested execution (`HostBody.calls`), and comes back
with the stack of invocations it started with.

## The discipline of the transfers

Which loop a reentry belongs to, which invocation a resume continues and which
driver the saved state leads back to are questions about the *transfers* of a run.
`Monitor` states the discipline on its own, without the machine: it follows a
trace, keeps the live invocations with the loop that entered each, and rejects a
delivery to another loop, a second delivery, a resume of another invocation and a
switch to another driver.

## The induction

`host_run` and `guest_run` are proved together by recursion on the call tree.
While the guest runs, the last invocation is suspended (`State.Suspended`): its
state holds the rest of its body, and every live invocation's state lies below
the next one's.  A nested invocation starts below all of them, so it cannot
overwrite a suspended one.
-/

namespace Lorelei.Coroutine

open StateTransition

variable {α β : Type}

/-! ## Direct nested execution -/

mutual

/-- The calls and returns a host function makes, run by recursion. -/
def HostBody.calls : HostBody α β → List (Event α β)
  | .ret => []
  | .reenter _ g callback rest =>
      .guestCall g :: callback.calls ++ .guestReturn g :: rest.calls

/-- The calls and returns a guest function makes, run by recursion. -/
def GuestBody.calls : GuestBody α β → List (Event α β)
  | .ret => []
  | .invoke _ f host rest => .hostCall f :: host.calls ++ .hostReturn f :: rest.calls

end

mutual

/-- How many host invocations are live at once below a host function. -/
def HostBody.depth : HostBody α β → Nat
  | .ret => 0
  | .reenter _ _ callback rest => max callback.depth rest.depth

/-- How many host invocations are live at once below a guest function. -/
def GuestBody.depth : GuestBody α β → Nat
  | .ret => 0
  | .invoke _ _ host rest => max (host.depth + 1) rest.depth

end

mutual

/-- No reentry of the tree ends the thread. -/
def HostBody.NoThreadExit : HostBody α β → Prop
  | .ret => True
  | .reenter conv _ callback rest =>
      conv ≠ .threadExit ∧ callback.NoThreadExit ∧ rest.NoThreadExit

/-- No reentry of the tree ends the thread. -/
def GuestBody.NoThreadExit : GuestBody α β → Prop
  | .ret => True
  | .invoke _ _ host rest => host.NoThreadExit ∧ rest.NoThreadExit

end

/-- The calls and returns of a run, without the transfers. -/
def Event.isCall : Event α β → Bool
  | .hostCall _ | .hostReturn _ | .guestCall _ | .guestReturn _ => true
  | .entered _ | .started _ _ | .issued _ _ | .switchedBack _ | .delivered _ _ | .resumed _
  | .continued _ => false

section IsCall

variable (f : α) (g : β) (self : Int) (frame serial : Nat)

@[simp] theorem Event.isCall_hostCall : (Event.hostCall f : Event α β).isCall = true := rfl

@[simp] theorem Event.isCall_hostReturn : (Event.hostReturn f : Event α β).isCall = true := rfl

@[simp] theorem Event.isCall_guestCall : (Event.guestCall g : Event α β).isCall = true := rfl

@[simp] theorem Event.isCall_guestReturn : (Event.guestReturn g : Event α β).isCall = true := rfl

@[simp] theorem Event.isCall_entered : (Event.entered frame : Event α β).isCall = false := rfl

@[simp] theorem Event.isCall_started :
    (Event.started self frame : Event α β).isCall = false := rfl

@[simp] theorem Event.isCall_issued :
    (Event.issued self serial : Event α β).isCall = false := rfl

@[simp] theorem Event.isCall_switchedBack :
    (Event.switchedBack frame : Event α β).isCall = false := rfl

@[simp] theorem Event.isCall_delivered :
    (Event.delivered frame serial : Event α β).isCall = false := rfl

@[simp] theorem Event.isCall_resumed : (Event.resumed frame : Event α β).isCall = false := rfl

@[simp] theorem Event.isCall_continued : (Event.continued self : Event α β).isCall = false := rfl

end IsCall

/-! ## The discipline of the transfers -/

/-- What a live invocation is doing. -/
inductive Status where
  | running
  /-- Suspended at a reentry that no loop has serviced yet. -/
  | issued (serial : Nat)
  /-- Suspended at a reentry that its loop has been given. -/
  | serviced
deriving DecidableEq, Repr

/-- A live invocation: its own state, the loop that entered it, and its status. -/
structure LiveInvocation where
  self : Int
  frame : Nat
  status : Status
deriving DecidableEq, Repr

/-- What has to be known of the past to judge the next transfer: the live
invocations, last one first, the loop that last entered or resumed one, and the
serial number the next reentry must have. -/
structure Monitor where
  live : List LiveInvocation
  driver : Option Nat
  fresh : Nat
deriving DecidableEq, Repr

namespace Monitor

/-- Follow one event; `none` when it breaks the discipline. -/
def accept (M : Monitor) : Event α β → Option Monitor
  | .hostCall _ | .guestCall _ | .guestReturn _ => some M
  | .entered frame =>
      match M.live with
      | [] => some { M with driver := some frame }
      | i :: _ => if i.status = .serviced then some { M with driver := some frame } else none
  | .started self frame =>
      if M.driver = some frame then some { M with live := ⟨self, frame, .running⟩ :: M.live }
      else none
  | .issued self serial =>
      match M.live with
      | [] => none
      | i :: rest =>
          if i.self = self ∧ i.status = .running ∧ serial = M.fresh then
            some { M with live := { i with status := .issued serial } :: rest
                          fresh := M.fresh + 1 }
          else none
  | .switchedBack frame => if M.driver = some frame then some M else none
  | .delivered frame serial =>
      match M.live with
      | [] => none
      | i :: rest =>
          if i.frame = frame ∧ i.status = .issued serial then
            some { M with live := { i with status := .serviced } :: rest }
          else none
  | .resumed frame =>
      match M.live with
      | [] => none
      | i :: _ =>
          if i.frame = frame ∧ i.status = .serviced then some { M with driver := some frame }
          else none
  | .continued self =>
      match M.live with
      | [] => none
      | i :: rest =>
          if i.self = self ∧ i.status = .serviced then
            some { M with live := { i with status := .running } :: rest }
          else none
  | .hostReturn _ =>
      match M.live with
      | [] => none
      | i :: rest => if i.status = .running then some { M with live := rest } else none

/-- Follow a whole trace. -/
def follow (M : Monitor) : List (Event α β) → Option Monitor
  | [] => some M
  | e :: es => (M.accept e).bind fun M' => follow M' es

@[simp] theorem follow_nil (M : Monitor) : M.follow ([] : List (Event α β)) = some M := rfl

theorem follow_cons {M M' : Monitor} {e : Event α β} (h : M.accept e = some M')
    (es : List (Event α β)) : M.follow (e :: es) = M'.follow es := by
  simp [follow, h]

/-- Traces are followed piece by piece. -/
theorem follow_append (M : Monitor) (es es' : List (Event α β)) :
    M.follow (es ++ es') = (M.follow es).bind fun M' => M'.follow es' := by
  induction es generalizing M with
  | nil => rfl
  | cons e es ih =>
      cases h : M.accept e with
      | none => simp [follow, h]
      | some M' => simp [follow, h, ih]

theorem follow_append_some {M M' : Monitor} {es : List (Event α β)} (h : M.follow es = some M')
    (es' : List (Event α β)) : M.follow (es ++ es') = M'.follow es' := by
  rw [follow_append, h, Option.bind_some]

end Monitor

/-! ## Suspended invocations -/

/-- The shape of the host side while the guest runs: the states of the live
invocations lie one below the other, and the last invocation is suspended with its
stack pointer below its own state. -/
structure State.Suspended (s : State α β) : Prop where
  ordered : (s.ctx.invocations.map InvocationInfo.hostState).Pairwise (· < ·)
  suspended : ∀ last ∈ s.ctx.lastInvocation,
    ∃ r, s.regStates last.hostState = some r ∧ r.sp < last.hostState

/-- What a piece of a run leaves alone: the variables of the loops below `height`,
the saved states of the invocations `live`, and the buffer. -/
structure Kept (height : Nat) (live : List InvocationInfo) (s t : State α β) : Prop where
  vars : ∀ k < height, t.vars k = s.vars k
  saved : ∀ i ∈ live, t.regStates i.hostState = s.regStates i.hostState
  stackSize : t.ctx.stackSize = s.ctx.stackSize

theorem Kept.trans {height height' : Nat} {live live' : List InvocationInfo} {s t u : State α β}
    (h : Kept height live s t) (h' : Kept height' live' t u) (hle : height ≤ height')
    (hsub : ∀ i ∈ live, i ∈ live') : Kept height live s u where
  vars k hk := (h'.vars k (lt_of_lt_of_le hk hle)).trans (h.vars k hk)
  saved i hi := (h'.saved i (hsub i hi)).trans (h.saved i hi)
  stackSize := h'.stackSize.trans h.stackSize

theorem alignDown_le (x : Int) : alignDown x ≤ x := by
  have := Int.emod_nonneg x (show (16 : Int) ≠ 0 by decide)
  simp only [alignDown]
  omega

/-- A suspended host side has room for a further coroutine, below every live
invocation's state. -/
theorem State.Suspended.nextStack {s : State α β} (h : s.Suspended) :
    ∃ stack, nextStack s = some stack ∧
      ∀ i ∈ s.ctx.invocations, stateAddress stack < i.hostState := by
  cases hl : s.ctx.invocations with
  | nil =>
      exact ⟨s.ctx.stackTop, by simp [Coroutine.nextStack, HostExecContext.lastInvocation, hl],
        by simp⟩
  | cons last live =>
      have hlast : s.ctx.lastInvocation = some last := by
        simp [HostExecContext.lastInvocation, hl]
      obtain ⟨r, hr, hsp⟩ := h.suspended last hlast
      have hbelow : stateAddress (alignDown r.sp) < last.hostState := by
        have := alignDown_le r.sp
        simp only [stateAddress]
        omega
      have hord := h.ordered
      rw [hl, List.map_cons, List.pairwise_cons] at hord
      refine ⟨alignDown r.sp, by simp [Coroutine.nextStack, hlast, hr], fun i hi => ?_⟩
      rcases List.mem_cons.mp hi with rfl | hi
      · exact hbelow
      · exact hbelow.trans (hord.1 _ (List.mem_map_of_mem hi))

/-! ## One equation per operation -/

theorem invoke_eq (m : Layout α) {s : State α β} {stack : Int}
    (h : Coroutine.nextStack s = some stack) (ia : InvocationArguments α β) (raPtr ret : Nat) :
    invoke m s ia raPtr ret =
      { s with
        ctx := { s.ctx with mainHostState := some ⟨m.mainSP, .driver ret⟩ }
        control := .invocationEntry ia raPtr stack } := by
  simp [invoke, h]

theorem invocationEntry_eq {s : State α β} (h : s.ctx.invocationCount < s.ctx.capacity)
    (ia : InvocationArguments α β) (raPtr : Nat) (stack : Int) :
    invocationEntry s ia raPtr stack =
      { s.log [.started (stateAddress stack) raPtr, .hostCall ia.proc] with
        ctx := { s.ctx with
          invocations := ⟨raPtr, stateAddress stack⟩ :: s.ctx.invocations }
        control := .host (stateAddress stack) ia.proc ia.body } := by
  simp [invocationEntry, HostExecContext.pushInvocation, h]

theorem resume_eq (m : Layout α) {s : State α β} {last : InvocationInfo} {self sp : Int} {f : α}
    {rest : HostBody α β} (hlast : s.ctx.lastInvocation = some last)
    (hr : s.regStates last.hostState = some ⟨sp, .reentering self f rest⟩) (ret : Nat) :
    resume m s ret =
      { s.log [.continued self] with
        ctx := { s.ctx with mainHostState := some ⟨m.mainSP, .driver ret⟩ }
        control := .host self f rest } := by
  simp only [resume, hlast, hr, continueAt]
  rfl

theorem reenter_eq (m : Layout α) {s : State α β} {last : InvocationInfo} {sp : Int} {ret : Nat}
    (hlast : s.ctx.lastInvocation = some last)
    (hmain : s.ctx.mainHostState = some ⟨sp, .driver ret⟩) (self : Int) (f : α)
    (rest : HostBody α β) (ra : ReentryArguments α β) :
    reenter m s self f rest ra =
      { ((((s.setRa last.raPtr ra).saveRegState last.hostState
          ⟨self - 1 - m.frameSize f, .reentering self f rest⟩).setRet ret 1).log
          [.switchedBack ret]) with control := .guest } := by
  simp only [reenter, hlast, hmain, continueAt]

theorem invocationReturn_eq {s : State α β} {last : InvocationInfo} {live : List InvocationInfo}
    {sp : Int} {ret : Nat} (hlive : s.ctx.invocations = last :: live)
    (hmain : s.ctx.mainHostState = some ⟨sp, .driver ret⟩) (f : α) :
    invocationReturn s f =
      { ((s.log [.hostReturn f]).setRet ret 0).log [.switchedBack ret] with
        ctx := { s.ctx with invocations := live }
        control := .guest } := by
  simp only [invocationReturn, HostExecContext.popInvocation, hlive, hmain, continueAt]
  rfl

theorem loopTest_return {s : State α β} {below : List (GuestFrame α β)}
    (h : (s.vars below.length).ret = 0) : loopTest s below = { s with guestStack := below } := by
  simp [loopTest, h]

theorem loopTest_service {s : State α β} {below : List (GuestFrame α β)}
    {ra : ReentryArguments α β} (hret : (s.vars below.length).ret = 1)
    (hra : (s.vars below.length).ra = some ra) (hconv : ra.conv ≠ .threadExit) :
    loopTest s below =
      { s.log [.delivered below.length ra.serial, .guestCall ra.proc] with
        guestStack := .callback ra.proc ra.body :: .loop .servicing :: below } := by
  simp only [loopTest, hret, hra, service, one_ne_zero, if_false, if_true]
  split
  · exact absurd ‹_› hconv
  all_goals rfl

/-! ## The legs of a call

Between two pieces of guest or host code the thread makes a fixed number of steps.
Each leg is stated once, with all it changes. -/

section Legs

variable (m : Layout α)

/-- From a guest function that calls a host function to the host function's first
step. -/
theorem enter_leg {s : State α β} {g : β} {conv : ClientCallingConvention} {f : α}
    {host : HostBody α β} {rest : GuestBody α β} {below : List (GuestFrame α β)}
    (hctl : s.control = .guest)
    (hstack : s.guestStack = .callback g (.invoke conv f host rest) :: below)
    (hsus : s.Suspended) (hcap : s.ctx.invocationCount < s.ctx.capacity) :
    ∃ (t : State α β) (self : Int), Reaches (step m) s t ∧ t.control = .host self f host ∧
      t.guestStack = .loop .inHost :: .callback g rest :: below ∧
      t.ctx.invocations = ⟨below.length + 1, self⟩ :: s.ctx.invocations ∧
      t.ctx.mainHostState = some ⟨m.mainSP, .driver (below.length + 1)⟩ ∧
      (∀ i ∈ s.ctx.invocations, self < i.hostState) ∧
      t.nextSerial = s.nextSerial ∧
      t.trace = s.trace ++ [.entered (below.length + 1), .started self (below.length + 1),
        .hostCall f] ∧
      Kept (below.length + 1) s.ctx.invocations s t := by
  obtain ⟨stack, hst, hlt⟩ := hsus.nextStack
  let s₁ := invokeFunction { s with guestStack := .callback g rest :: below } ⟨conv, f, host⟩
  let s₂ : State α β :=
    { s₁.log [.entered (below.length + 1)] with
      ctx := { s.ctx with mainHostState := some ⟨m.mainSP, .driver (below.length + 1)⟩ }
      control := .invocationEntry ⟨conv, f, host⟩ (below.length + 1) stack }
  let s₃ : State α β :=
    { s₂.log [.started (stateAddress stack) (below.length + 1), .hostCall f] with
      ctx := { s₂.ctx with
        invocations := ⟨below.length + 1, stateAddress stack⟩ :: s.ctx.invocations }
      control := .host (stateAddress stack) f host }
  have h₁ : step m s = some s₁ := by simp [step, hctl, guestStep, hstack, s₁]
  have h₂ : step m s₁ = some s₂ :=
    congrArg some (invoke_eq m (s := s₁.log [.entered (below.length + 1)]) hst _ _ _)
  have h₃ : step m s₂ = some s₃ := congrArg some (invocationEntry_eq (s := s₂) hcap _ _ _)
  refine ⟨s₃, stateAddress stack, .head h₁ (.head h₂ (.single h₃)), rfl, rfl, rfl, rfl, hlt, rfl,
    by simp [s₃, s₂, s₁, State.log, invokeFunction], ?_⟩
  refine ⟨fun k hk => ?_, fun i hi => rfl, rfl⟩
  simp [s₃, s₂, s₁, State.log, invokeFunction, hk.ne]

/-- From a host function that reenters to the guest function's first step: the
arguments reach the loop whose variable the invocation was given. -/
theorem reenter_leg {s : State α β} {self sp : Int} {f : α} {conv : ServerReentryConvention}
    {g : β} {callback : GuestBody α β} {rest : HostBody α β} {below : List (GuestFrame α β)}
    {live : List InvocationInfo} (hctl : s.control = .host self f (.reenter conv g callback rest))
    (hstack : s.guestStack = .loop .inHost :: below)
    (hlive : s.ctx.invocations = ⟨below.length, self⟩ :: live)
    (hmain : s.ctx.mainHostState = some ⟨sp, .driver below.length⟩)
    (hconv : conv ≠ .threadExit) (hlt : ∀ i ∈ live, self < i.hostState) :
    ∃ t : State α β, Reaches (step m) s t ∧ t.control = .guest ∧
      t.guestStack = .callback g callback :: .loop .servicing :: below ∧ t.ctx = s.ctx ∧
      t.regStates self = some ⟨self - 1 - m.frameSize f, .reentering self f rest⟩ ∧
      t.nextSerial = s.nextSerial + 1 ∧
      t.trace = s.trace ++ [.issued self s.nextSerial, .switchedBack below.length,
        .delivered below.length s.nextSerial, .guestCall g] ∧
      Kept below.length live s t := by
  let ra : ReentryArguments α β := ⟨s.nextSerial, conv, g, callback⟩
  let s₀ : State α β :=
    { s.log [.issued self s.nextSerial] with nextSerial := s.nextSerial + 1 }
  let s₁ : State α β :=
    { ((((s₀.setRa below.length ra).saveRegState self
        ⟨self - 1 - m.frameSize f, .reentering self f rest⟩).setRet below.length 1).log
        [.switchedBack below.length]) with control := .guest }
  let s₂ : State α β :=
    { s₁.log [.delivered below.length s.nextSerial, .guestCall g] with
      guestStack := .callback g callback :: .loop .servicing :: below }
  have hlast : s₀.ctx.lastInvocation = some ⟨below.length, self⟩ := by
    simp [s₀, State.log, HostExecContext.lastInvocation, hlive]
  have h₁ : step m s = some s₁ := by
    simp only [step, hctl, hostStep]
    exact congrArg some (reenter_eq m (s := s₀) hlast hmain self f rest ra)
  have hvars : s₁.vars below.length = ⟨some ra, 1⟩ := by
    simp [s₁, s₀, State.log, State.setRet, State.setRa, State.saveRegState]
  have h₂ : step m s₁ = some s₂ := by
    have htest : loopTest s₁ below = s₂ :=
      loopTest_service (s := s₁) (by rw [hvars]) (by rw [hvars]) hconv
    have hs : s₁.guestStack = .loop .inHost :: below := hstack
    have hstep : step m s₁ = guestStep s₁ := rfl
    rw [hstep, guestStep, hs]
    exact congrArg some htest
  refine ⟨s₂, .head h₁ (.single h₂), rfl, rfl, rfl, ?_, rfl, ?_, ?_⟩
  · simp [s₂, s₁, State.log, State.setRet, State.saveRegState]
  · simp [s₂, s₁, s₀, State.log, State.setRet, State.setRa, State.saveRegState]
  · refine ⟨fun k hk => ?_, fun i hi => ?_, rfl⟩
    · simp [s₂, s₁, s₀, State.log, State.setRet, State.setRa, State.saveRegState, hk.ne]
    · simp [s₂, s₁, s₀, State.log, State.setRet, State.setRa, State.saveRegState,
        (hlt i hi).ne']

/-- From the end of a serviced reentry to the host function's next step: the last
invocation goes on with the rest of its body. -/
theorem resume_leg {s : State α β} {self sp : Int} {f : α} {g : β} {rest : HostBody α β}
    {below : List (GuestFrame α β)} {live : List InvocationInfo} (hctl : s.control = .guest)
    (hstack : s.guestStack = .callback g .ret :: .loop .servicing :: below)
    (hlive : s.ctx.invocations = ⟨below.length, self⟩ :: live)
    (hr : s.regStates self = some ⟨sp, .reentering self f rest⟩) :
    ∃ t : State α β, Reaches (step m) s t ∧ t.control = .host self f rest ∧
      t.guestStack = .loop .inHost :: below ∧ t.ctx.invocations = s.ctx.invocations ∧
      t.ctx.mainHostState = some ⟨m.mainSP, .driver below.length⟩ ∧
      t.nextSerial = s.nextSerial ∧
      t.trace = s.trace ++ [.guestReturn g, .resumed below.length, .continued self] ∧
      Kept below.length live s t := by
  let s₁ : State α β :=
    { s.log [.guestReturn g] with guestStack := .loop .servicing :: below }
  let s₂ : State α β :=
    { s₁ with
      guestStack := .loop .inHost :: below
      control := .commonEntry (.resumeFunction below.length) }
  let s₃ : State α β :=
    { (s₂.log [.resumed below.length]).log [.continued self] with
      ctx := { s.ctx with mainHostState := some ⟨m.mainSP, .driver below.length⟩ }
      control := .host self f rest }
  have hlast : s.ctx.lastInvocation = some ⟨below.length, self⟩ := by
    simp [HostExecContext.lastInvocation, hlive]
  have h₁ : step m s = some s₁ := by simp [step, hctl, guestStep, hstack, s₁]
  have h₂ : step m s₁ = some s₂ := by
    simp [step, s₁, s₂, State.log, hctl, guestStep]
  have h₃ : step m s₂ = some s₃ :=
    congrArg some (resume_eq m (s := s₂.log [.resumed below.length]) hlast hr below.length)
  refine ⟨s₃, .head h₁ (.head h₂ (.single h₃)), rfl, rfl, rfl, rfl, rfl, ?_, ?_⟩
  · simp [s₃, s₂, s₁, State.log]
  · exact ⟨fun _ _ => rfl, fun _ _ => rfl, rfl⟩

/-- From the end of a host function to the frame that called `invokeFunction`. -/
theorem return_leg {s : State α β} {self sp : Int} {f : α} {below : List (GuestFrame α β)}
    {live : List InvocationInfo} (hctl : s.control = .host self f .ret)
    (hstack : s.guestStack = .loop .inHost :: below)
    (hlive : s.ctx.invocations = ⟨below.length, self⟩ :: live)
    (hmain : s.ctx.mainHostState = some ⟨sp, .driver below.length⟩) :
    ∃ t : State α β, Reaches (step m) s t ∧ t.control = .guest ∧ t.guestStack = below ∧
      t.ctx.invocations = live ∧ t.nextSerial = s.nextSerial ∧
      t.trace = s.trace ++ [.hostReturn f, .switchedBack below.length] ∧
      Kept below.length live s t := by
  let s₁ : State α β :=
    { ((s.log [.hostReturn f]).setRet below.length 0).log [.switchedBack below.length] with
      ctx := { s.ctx with invocations := live }
      control := .guest }
  let s₂ : State α β := { s₁ with guestStack := below }
  have h₁ : step m s = some s₁ := by
    simp only [step, hctl, hostStep]
    exact congrArg some (invocationReturn_eq hlive hmain f)
  have h₂ : step m s₁ = some s₂ := by
    have hs : s₁.guestStack = .loop .inHost :: below := hstack
    have hret : (s₁.vars below.length).ret = 0 := by simp [s₁, State.log, State.setRet]
    have hstep : step m s₁ = guestStep s₁ := rfl
    rw [hstep, guestStep, hs]
    exact congrArg some (loopTest_return hret)
  refine ⟨s₂, .head h₁ (.single h₂), rfl, rfl, rfl, rfl, ?_, ?_⟩
  · simp [s₂, s₁, State.log, State.setRet]
  · refine ⟨fun k hk => ?_, fun i hi => rfl, rfl⟩
    simp [s₂, s₁, State.log, State.setRet, hk.ne]

end Legs

/-! ## The induction -/

/-- The last live invocation, if any, waits for the end of its reentry. -/
def Monitor.InGuest (M : Monitor) : Prop := ∀ i ∈ M.live.head?, i.status = .serviced

mutual

/-- A running host function completes, and control comes back to the frame that
called `invokeFunction`. -/
theorem host_run (m : Layout α) : ∀ (body : HostBody α β) {s : State α β} {self sp : Int} {f : α}
    {below : List (GuestFrame α β)} {live : List InvocationInfo},
    s.control = .host self f body → s.guestStack = .loop .inHost :: below →
    s.ctx.invocations = ⟨below.length, self⟩ :: live →
    s.ctx.mainHostState = some ⟨sp, .driver below.length⟩ →
    (s.ctx.invocations.map InvocationInfo.hostState).Pairwise (· < ·) →
    body.NoThreadExit → s.ctx.invocationCount + body.depth ≤ s.ctx.capacity →
    ∃ (t : State α β) (es : List (Event α β)), Reaches (step m) s t ∧ t.control = .guest ∧
      t.guestStack = below ∧ t.ctx.invocations = live ∧ t.trace = s.trace ++ es ∧
      es.filter Event.isCall = body.calls ++ [.hostReturn f] ∧ Kept below.length live s t ∧
      ∀ L : List LiveInvocation, Monitor.follow
        ⟨⟨self, below.length, .running⟩ :: L, some below.length, s.nextSerial⟩ es =
          some ⟨L, some below.length, t.nextSerial⟩
  | .ret, s, self, sp, f, below, live, hctl, hstack, hlive, hmain, _, _, _ => by
      obtain ⟨t, hrun, htctl, htstack, htlive, htser, htrace, hkept⟩ :=
        return_leg m hctl hstack hlive hmain
      refine ⟨t, _, hrun, htctl, htstack, htlive, htrace, rfl, hkept, fun L => ?_⟩
      simp [Monitor.follow, Monitor.accept, htser]
  | .reenter conv g callback rest, s, self, sp, f, below, live, hctl, hstack, hlive, hmain, hord,
      hexit, hcap => by
      obtain ⟨hconv, hexit₁, hexit₂⟩ := hexit
      rw [hlive, List.map_cons, List.pairwise_cons] at hord
      have hlt : ∀ i ∈ live, self < i.hostState := fun i hi => hord.1 _ (List.mem_map_of_mem hi)
      obtain ⟨s₁, hrun₁, hctl₁, hstack₁, hctx₁, hsaved₁, hser₁, htrace₁, hkept₁⟩ :=
        reenter_leg m hctl hstack hlive hmain hconv hlt
      -- The callback runs on top of the suspended invocation.
      have hlive₁ : s₁.ctx.invocations = ⟨below.length, self⟩ :: live := by rw [hctx₁, hlive]
      have hsus₁ : s₁.Suspended := by
        refine ⟨by rw [hlive₁]; exact List.pairwise_cons.mpr hord, fun last hlast => ?_⟩
        rw [HostExecContext.lastInvocation, hlive₁] at hlast
        cases hlast
        exact ⟨_, hsaved₁, by simp only; omega⟩
      have hcap₁ : s₁.ctx.invocationCount + callback.depth ≤ s₁.ctx.capacity := by
        rw [hctx₁]
        exact le_trans (Nat.add_le_add_left (le_max_left _ _) _) hcap
      obtain ⟨s₂, es₂, hrun₂, hctl₂, hstack₂, hlive₂, htrace₂, hcalls₂, hkept₂, hmon₂⟩ :=
        guest_run m callback hctl₁ hstack₁ hsus₁ hexit₁ hcap₁
      rw [hlive₁] at hlive₂ hkept₂
      -- Its end resumes the same invocation, which nothing has overwritten.
      have hsaved₂ : s₂.regStates self = some ⟨self - 1 - m.frameSize f,
          .reentering self f rest⟩ :=
        (hkept₂.saved ⟨below.length, self⟩ List.mem_cons_self).trans hsaved₁
      obtain ⟨s₃, hrun₃, hctl₃, hstack₃, hlive₃, hmain₃, hser₃, htrace₃, hkept₃⟩ :=
        resume_leg m hctl₂ hstack₂ hlive₂ hsaved₂
      rw [hlive₂] at hlive₃
      have hsize : s₃.ctx.stackSize = s.ctx.stackSize := by
        rw [hkept₃.stackSize, hkept₂.stackSize, hkept₁.stackSize]
      have hcap₃ : s₃.ctx.invocationCount + rest.depth ≤ s₃.ctx.capacity := by
        have hmax := le_trans (Nat.add_le_add_left (le_max_right _ _) _) hcap
        simpa only [HostExecContext.invocationCount, HostExecContext.capacity, hlive, hlive₃,
          hsize] using hmax
      obtain ⟨t, es, hrun, htctl, htstack, htlive, htrace, hcalls, hkept, hmon⟩ :=
        host_run m rest hctl₃ hstack₃ hlive₃ hmain₃
          (by rw [hlive₃]; exact List.pairwise_cons.mpr hord) hexit₂ hcap₃
      refine ⟨t, [.issued self s.nextSerial, .switchedBack below.length,
          .delivered below.length s.nextSerial, .guestCall g] ++ (es₂ ++
          ([.guestReturn g, .resumed below.length, .continued self] ++ es)),
        hrun₁.trans (hrun₂.trans (hrun₃.trans hrun)), htctl, htstack, htlive, ?_, ?_, ?_, ?_⟩
      · rw [htrace, htrace₃, htrace₂, htrace₁]
        simp only [List.append_assoc]
      · simp [List.filter_cons, hcalls₂, hcalls, HostBody.calls]
      · have h₁₂ := hkept₁.trans hkept₂ (by simp only [List.length_cons]; omega)
          (fun i hi => List.mem_cons_of_mem _ hi)
        exact (h₁₂.trans hkept₃ le_rfl (fun _ hi => hi)).trans hkept le_rfl (fun _ hi => hi)
      · intro L
        obtain ⟨d, hd⟩ := hmon₂ ⟨⟨self, below.length, .serviced⟩ :: L, some below.length,
          s₁.nextSerial⟩ (by simp [Monitor.InGuest]) rfl
        have hstart : Monitor.follow ⟨⟨self, below.length, .running⟩ :: L, some below.length,
            s.nextSerial⟩ ([.issued self s.nextSerial, .switchedBack below.length,
            .delivered below.length s.nextSerial, .guestCall g] : List (Event α β)) =
            some ⟨⟨self, below.length, .serviced⟩ :: L, some below.length, s₁.nextSerial⟩ := by
          simp [Monitor.follow, Monitor.accept, hser₁]
        have hmid : Monitor.follow ⟨⟨self, below.length, .serviced⟩ :: L, d, s₂.nextSerial⟩
            ([.guestReturn g, .resumed below.length, .continued self] : List (Event α β)) =
            some ⟨⟨self, below.length, .running⟩ :: L, some below.length, s₃.nextSerial⟩ := by
          simp [Monitor.follow, Monitor.accept, hser₃]
        rw [Monitor.follow_append_some hstart, Monitor.follow_append_some hd,
          Monitor.follow_append_some hmid]
        exact hmon L

/-- A guest function runs to its end. -/
theorem guest_run (m : Layout α) : ∀ (body : GuestBody α β) {s : State α β} {g : β}
    {below : List (GuestFrame α β)}, s.control = .guest →
    s.guestStack = .callback g body :: below → s.Suspended → body.NoThreadExit →
    s.ctx.invocationCount + body.depth ≤ s.ctx.capacity →
    ∃ (t : State α β) (es : List (Event α β)), Reaches (step m) s t ∧ t.control = .guest ∧
      t.guestStack = .callback g .ret :: below ∧ t.ctx.invocations = s.ctx.invocations ∧
      t.trace = s.trace ++ es ∧ es.filter Event.isCall = body.calls ∧
      Kept (below.length + 1) s.ctx.invocations s t ∧
      ∀ M : Monitor, M.InGuest → M.fresh = s.nextSerial →
        ∃ d, M.follow es = some ⟨M.live, d, t.nextSerial⟩
  | .ret, s, g, below, hctl, hstack, _, _, _ =>
      ⟨s, [], .refl, hctl, hstack, rfl, by simp, rfl, ⟨fun _ _ => rfl, fun _ _ => rfl, rfl⟩,
        fun M _ hfresh => ⟨M.driver, by simp [← hfresh]⟩⟩
  | .invoke conv f host rest, s, g, below, hctl, hstack, hsus, hexit, hcap => by
      have hdepth : s.ctx.invocationCount + (host.depth + 1) ≤ s.ctx.capacity :=
        le_trans (Nat.add_le_add_left (le_max_left _ _) _) hcap
      obtain ⟨s₁, self, hrun₁, hctl₁, hstack₁, hlive₁, hmain₁, hlt₁, hser₁, htrace₁, hkept₁⟩ :=
        enter_leg m hctl hstack hsus (by omega)
      have hord₁ : (s₁.ctx.invocations.map InvocationInfo.hostState).Pairwise (· < ·) := by
        rw [hlive₁, List.map_cons, List.pairwise_cons]
        refine ⟨fun a ha => ?_, hsus.ordered⟩
        obtain ⟨i, hi, rfl⟩ := List.mem_map.mp ha
        exact hlt₁ i hi
      have hcap₁ : s₁.ctx.invocationCount + host.depth ≤ s₁.ctx.capacity := by
        simp only [HostExecContext.invocationCount, HostExecContext.capacity, hlive₁,
          hkept₁.stackSize, List.length_cons] at hdepth ⊢
        omega
      obtain ⟨s₂, es₂, hrun₂, hctl₂, hstack₂, hlive₂, htrace₂, hcalls₂, hkept₂, hmon₂⟩ :=
        host_run m host hctl₁ hstack₁ hlive₁ hmain₁ hord₁ hexit.1 hcap₁
      -- The invocations below have kept their states, so the guest may go on.
      have hsus₂ : s₂.Suspended := by
        refine ⟨by rw [hlive₂]; exact hsus.ordered, fun last hlast => ?_⟩
        rw [HostExecContext.lastInvocation, hlive₂] at hlast
        obtain ⟨r, hr, hsp⟩ := hsus.suspended last hlast
        have hmem : last ∈ s.ctx.invocations := List.mem_of_mem_head? hlast
        exact ⟨r, by rw [hkept₂.saved last hmem, hkept₁.saved last hmem, hr], hsp⟩
      have hsize : s₂.ctx.stackSize = s.ctx.stackSize := by
        rw [hkept₂.stackSize, hkept₁.stackSize]
      have hcap₂ : s₂.ctx.invocationCount + rest.depth ≤ s₂.ctx.capacity := by
        have hmax := le_trans (Nat.add_le_add_left (le_max_right _ _) _) hcap
        simpa only [HostExecContext.invocationCount, HostExecContext.capacity, hlive₂,
          hsize] using hmax
      obtain ⟨t, es, hrun, htctl, htstack, htlive, htrace, hcalls, hkept, hmon⟩ :=
        guest_run m rest hctl₂ hstack₂ hsus₂ hexit.2 hcap₂
      rw [hlive₂] at htlive hkept
      refine ⟨t, [.entered (below.length + 1), .started self (below.length + 1), .hostCall f] ++
          (es₂ ++ es), hrun₁.trans (hrun₂.trans hrun), htctl, htstack, htlive, ?_, ?_, ?_, ?_⟩
      · rw [htrace, htrace₂, htrace₁]
        simp only [List.append_assoc]
      · simp [List.filter_cons, hcalls₂, hcalls, GuestBody.calls]
      · have h₁₂ := hkept₁.trans hkept₂ (by simp) (fun _ hi => hi)
        exact h₁₂.trans hkept le_rfl (fun _ hi => hi)
      · intro M hguest hfresh
        have hstart : M.follow ([.entered (below.length + 1),
            .started self (below.length + 1), .hostCall f] : List (Event α β)) =
            some ⟨⟨self, below.length + 1, .running⟩ :: M.live, some (below.length + 1),
              s₁.nextSerial⟩ := by
          have hentered : M.accept (.entered (below.length + 1) : Event α β) =
              some { M with driver := some (below.length + 1) } := by
            cases hl : M.live with
            | nil => simp [Monitor.accept, hl]
            | cons i L => simp [Monitor.accept, hl, hguest i (by simp [hl])]
          rw [Monitor.follow_cons hentered]
          simp [Monitor.follow, Monitor.accept, hser₁, hfresh]
        obtain ⟨d, hd⟩ := hmon ⟨M.live, some (below.length + 1), s₂.nextSerial⟩ hguest rfl
        refine ⟨d, ?_⟩
        rw [Monitor.follow_append_some hstart]
        exact (Monitor.follow_append_some (hmon₂ M.live) es).trans hd

end

/-! ## Every reentry is delivered once -/

/-- The serial number of a reentry, where it is issued. -/
def Event.issuedSerial : Event α β → Option Nat
  | .issued _ serial => some serial
  | _ => none

/-- The serial number of a reentry, where a loop services it. -/
def Event.deliveredSerial : Event α β → Option Nat
  | .delivered _ serial => some serial
  | _ => none

namespace Monitor

/-- The reentries that are issued and not delivered. -/
def pending (M : Monitor) : List Nat :=
  M.live.filterMap fun i => match i.status with
    | .issued serial => some serial
    | .running | .serviced => none

/-- One transfer: the next serial number is issued, or a pending one is delivered. -/
theorem accept_serials {M M' : Monitor} {e : Event α β} (h : M.accept e = some M') :
    (e.deliveredSerial.toList ++ M'.pending).Perm (e.issuedSerial.toList ++ M.pending) ∧
      M'.fresh = M.fresh + e.issuedSerial.toList.length ∧
      ∀ serial ∈ e.issuedSerial, serial = M.fresh := by
  rcases M with ⟨live, driver, fresh⟩
  cases e with
  | hostCall f | guestCall g | guestReturn g =>
      cases h
      exact ⟨.refl _, rfl, by simp [Event.issuedSerial]⟩
  | switchedBack frame =>
      simp only [accept, Option.ite_none_right_eq_some] at h
      obtain ⟨_, h⟩ := h
      cases h
      exact ⟨.refl _, rfl, by simp [Event.issuedSerial]⟩
  | started self frame =>
      simp only [accept, Option.ite_none_right_eq_some] at h
      obtain ⟨_, h⟩ := h
      cases h
      exact ⟨.refl _, rfl, by simp [Event.issuedSerial]⟩
  | entered frame =>
      cases live with
      | nil =>
          cases h
          exact ⟨.refl _, rfl, by simp [Event.issuedSerial]⟩
      | cons i rest =>
          simp only [accept, Option.ite_none_right_eq_some] at h
          obtain ⟨_, h⟩ := h
          cases h
          exact ⟨.refl _, rfl, by simp [Event.issuedSerial]⟩
  | issued self serial =>
      cases live with
      | nil => cases h
      | cons i rest =>
          simp only [accept, Option.ite_none_right_eq_some] at h
          obtain ⟨⟨_, hrun, rfl⟩, h⟩ := h
          cases h
          refine ⟨?_, rfl, by simp [Event.issuedSerial]⟩
          simp [Event.issuedSerial, Event.deliveredSerial, pending, hrun]
  | delivered frame serial =>
      cases live with
      | nil => cases h
      | cons i rest =>
          simp only [accept, Option.ite_none_right_eq_some] at h
          obtain ⟨⟨_, hissued⟩, h⟩ := h
          cases h
          refine ⟨?_, rfl, by simp [Event.issuedSerial]⟩
          simp [Event.issuedSerial, Event.deliveredSerial, pending, hissued]
  | resumed frame =>
      cases live with
      | nil => cases h
      | cons i rest =>
          simp only [accept, Option.ite_none_right_eq_some] at h
          obtain ⟨_, h⟩ := h
          cases h
          exact ⟨.refl _, rfl, by simp [Event.issuedSerial]⟩
  | continued self =>
      cases live with
      | nil => cases h
      | cons i rest =>
          simp only [accept, Option.ite_none_right_eq_some] at h
          obtain ⟨⟨_, hserviced⟩, h⟩ := h
          cases h
          refine ⟨?_, rfl, by simp [Event.issuedSerial]⟩
          simp [Event.issuedSerial, Event.deliveredSerial, pending, hserviced]
  | hostReturn f =>
      cases live with
      | nil => cases h
      | cons i rest =>
          simp only [accept, Option.ite_none_right_eq_some] at h
          obtain ⟨hrun, h⟩ := h
          cases h
          refine ⟨?_, rfl, by simp [Event.issuedSerial]⟩
          simp [Event.issuedSerial, Event.deliveredSerial, pending, hrun]

/-- Along a trace the reentries are numbered upwards, and what is delivered is what
was pending or issued. -/
theorem follow_serials {M M' : Monitor} {es : List (Event α β)} (h : M.follow es = some M') :
    (es.filterMap Event.deliveredSerial ++ M'.pending).Perm
        (M.pending ++ es.filterMap Event.issuedSerial) ∧
      es.filterMap Event.issuedSerial =
        List.range' M.fresh (es.filterMap Event.issuedSerial).length := by
  induction es generalizing M with
  | nil =>
      cases h
      simp
  | cons e es ih =>
      obtain ⟨M₁, haccept, hfollow⟩ := Option.bind_eq_some_iff.mp h
      obtain ⟨hperm, hrange⟩ := ih hfollow
      obtain ⟨hperm₁, hfresh, hserial⟩ := accept_serials haccept
      have hissued : (e :: es).filterMap Event.issuedSerial =
          e.issuedSerial.toList ++ es.filterMap Event.issuedSerial := by
        cases he : e.issuedSerial <;> simp [he]
      have hdelivered : (e :: es).filterMap Event.deliveredSerial =
          e.deliveredSerial.toList ++ es.filterMap Event.deliveredSerial := by
        cases he : e.deliveredSerial <;> simp [he]
      constructor
      · rw [hissued, hdelivered, List.append_assoc]
        calc
          (e.deliveredSerial.toList ++ (es.filterMap Event.deliveredSerial ++ M'.pending)).Perm
              (e.deliveredSerial.toList ++ (M₁.pending ++ es.filterMap Event.issuedSerial)) :=
            hperm.append_left _
          _ = (e.deliveredSerial.toList ++ M₁.pending) ++ es.filterMap Event.issuedSerial :=
            (List.append_assoc _ _ _).symm
          List.Perm _ ((M.pending ++ e.issuedSerial.toList) ++ es.filterMap Event.issuedSerial) :=
            (hperm₁.trans List.perm_append_comm).append_right _
          _ = M.pending ++ (e.issuedSerial.toList ++ es.filterMap Event.issuedSerial) :=
            List.append_assoc _ _ _
      · cases he : e.issuedSerial with
        | none =>
            rw [he] at hfresh
            simpa [he, hfresh] using hrange
        | some serial =>
            rw [he] at hfresh
            obtain rfl := hserial serial he
            simpa [he, hfresh, List.range'_succ] using hrange

/-- A trace that starts and ends with nothing pending delivers every reentry it
issues exactly once. -/
theorem follow_delivered {M M' : Monitor} {es : List (Event α β)} (h : M.follow es = some M')
    (hpending : M.pending = []) (hpending' : M'.pending = []) :
    (es.filterMap Event.deliveredSerial).Perm (es.filterMap Event.issuedSerial) ∧
      (es.filterMap Event.issuedSerial).Nodup := by
  obtain ⟨hperm, hrange⟩ := follow_serials h
  rw [hpending, hpending', List.append_nil, List.nil_append] at hperm
  refine ⟨hperm, ?_⟩
  rw [hrange]
  exact List.nodup_range'

end Monitor

/-! ## One outermost call -/

/-- A thread on which no invocation is live, about to start one. -/
theorem State.suspended_of_idle {s : State α β} (h : s.ctx.invocations = []) : s.Suspended where
  ordered := by simp [h]
  suspended last hlast := by simp [HostExecContext.lastInvocation, h] at hlast

/-- No state follows a failed one. -/
theorem eq_of_reaches_failed {m : Layout α} {s t : State α β} (hs : s.control = .failed)
    (h : Reaches (step m) s t) : t = s := by
  cases Relation.ReflTransGen.cases_head h with
  | inl h => exact h.symm
  | inr h =>
      obtain ⟨u, hu, _⟩ := h
      simp [step, hs] at hu

end Lorelei.Coroutine
