import Lorelei.Lib.Machine

/-!
# Switching between contexts on one processor

A pair of routines starts a procedure on a fresh stack and switches between a
*driver* and the procedures it started.  Each transfer stores a register file in
memory and goes on from another one.

`Routines` is what such a pair has to promise, transfer by transfer, whatever the
instruction set; `Step` runs a driver and any number of nested procedures over it,
with arbitrary code between the transfers.  The code may change every register and
all memory but the *footprints* of the suspended contexts.

The results are about the moments at which control comes back to a context.  The
integer registers the routines save are then as they were, in every run
(`Run.restores`).  The floating-point registers, which these routines do not touch,
are as they were if the code between the transfers never changes them while a context
is suspended (`Run.restoresFloats`).
-/

namespace ContextSwitch

open ByteMemory Machine

variable {Reg FReg : Type}

/-- A context that waits for its call to come back: the registers when the call was
made, the address it returns to, and where its register file is. -/
structure Suspension (Reg FReg : Type) where
  gpr : Reg → Word
  fpr : FReg → Word
  ret : Word
  addr : Word

/-- A pair of routines, and what each of them does. -/
structure Routines (Reg FReg : Type) where
  sp : Reg
  /-- The integer registers a call must preserve, the stack pointer among them. -/
  calleeSaved : List Reg
  /-- The floating-point registers a call must preserve. -/
  floatCalleeSaved : List FReg
  /-- The register that holds the driver's record while a procedure runs. -/
  anchor : Reg
  anchor_mem : anchor ∈ calleeSaved
  anchor_ne_sp : anchor ≠ sp
  startFrom : Reg
  startProc : Reg
  startStack : Reg
  switchFrom : Reg
  switchTo : Reg
  /-- The memory a suspended context depends on: its record, and its return address
  if that is on the stack. -/
  footprint : Word → (Reg → Word) → Set Word
  /-- The record of a call and its return address do not overlap. -/
  WellPlaced : Word → (Reg → Word) → Prop
  /-- What starting a procedure writes on its stack. -/
  scratch : Word → Set Word
  /-- The memory holds a context that called with these registers and returns to
  this address. -/
  Suspends : Memory → Word → (Reg → Word) → Word → Prop
  /-- Call the start routine, up to the procedure's first instruction; the call
  returns to the first address, the procedure to the second. -/
  start : Cpu Reg FReg → Word → Word → Cpu Reg FReg
  /-- The start routine after the procedure has returned. -/
  finish : Cpu Reg FReg → Cpu Reg FReg
  /-- Call the switch routine; the call returns to the address given. -/
  switch : Cpu Reg FReg → Word → Cpu Reg FReg
  suspends_congr {m m' : Memory} {a : Word} {regs : Reg → Word} {ret : Word} :
    (∀ x ∈ footprint a regs, m' x = m x) → Suspends m a regs ret → Suspends m' a regs ret
  start_spec {s : Cpu Reg FReg} {a : Word} (ret next : Word) : s.gpr startFrom = a →
    WellPlaced a s.gpr → Disjoint (scratch (s.gpr startStack)) (footprint a s.gpr) →
    (start s ret next).pc = s.gpr startProc ∧ (start s ret next).gpr anchor = a ∧
      (start s ret next).fpr = s.fpr ∧ Suspends (start s ret next).mem a s.gpr ret ∧
      ∀ x, x ∉ footprint a s.gpr → x ∉ scratch (s.gpr startStack) →
        (start s ret next).mem x = s.mem x
  finish_spec {s : Cpu Reg FReg} {regs : Reg → Word} {ret : Word} :
    Suspends s.mem (s.gpr anchor) regs ret →
    (finish s).pc = ret ∧ (∀ r ∈ calleeSaved, (finish s).gpr r = regs r) ∧ (finish s).fpr = s.fpr ∧
      (finish s).mem = s.mem
  switch_spec {s : Cpu Reg FReg} {a b : Word} {regs : Reg → Word} {back : Word} (ret : Word) :
    s.gpr switchFrom = a → s.gpr switchTo = b → WellPlaced a s.gpr →
    Disjoint (footprint a s.gpr) (footprint b regs) → Suspends s.mem b regs back →
    (switch s ret).pc = back ∧ (∀ r ∈ calleeSaved, (switch s ret).gpr r = regs r) ∧
      (switch s ret).fpr = s.fpr ∧ Suspends (switch s ret).mem a s.gpr ret ∧
      ∀ x, x ∉ footprint a s.gpr → (switch s ret).mem x = s.mem x

/-! ## The driver and its procedures -/

/-- The registers a procedure was entered with. -/
structure Entry (Reg FReg : Type) where
  gpr : Reg → Word
  fpr : FReg → Word
  next : Word

/-- Which context runs.  A procedure runs on top of those that are suspended, and
the driver waits for it. -/
inductive Contexts (Reg FReg : Type) where
  | driving (procs : List (Entry Reg FReg × Suspension Reg FReg))
  | inProc (driver : Suspension Reg FReg) (entry : Entry Reg FReg)
      (procs : List (Entry Reg FReg × Suspension Reg FReg))

/-- The suspended contexts. -/
def Contexts.suspended : Contexts Reg FReg → List (Suspension Reg FReg)
  | .driving procs => procs.map Prod.snd
  | .inProc driver _ procs => driver :: procs.map Prod.snd

/-- The procedures that have not returned. -/
def Contexts.entries : Contexts Reg FReg → List (Entry Reg FReg)
  | .driving procs => procs.map Prod.fst
  | .inProc _ entry procs => entry :: procs.map Prod.fst

structure State (Reg FReg : Type) where
  cpu : Cpu Reg FReg
  contexts : Contexts Reg FReg

/-- What a step is, for a statement about runs. -/
inductive Event (Reg FReg : Type) where
  /-- Code runs in one context while `waiting` are suspended. -/
  | code (waiting : List (Suspension Reg FReg)) (before after : FReg → Word)
  /-- A procedure starts. -/
  | started
  /-- Control comes back to a suspended context, with this processor state. -/
  | back (context : Suspension Reg FReg) (cpu : Cpu Reg FReg)

/-- `a` is a place for the record of a call made now: it and the call's return
address are apart from everything the suspended contexts depend on. -/
def Routines.Fresh (R : Routines Reg FReg) (s : State Reg FReg) (a : Word) : Prop :=
  R.WellPlaced a s.cpu.gpr ∧
    ∀ σ ∈ s.contexts.suspended,
      Disjoint (R.footprint a s.cpu.gpr) (R.footprint σ.addr σ.gpr)

/-- The stack of a new procedure is apart from what the suspended contexts and the
call that starts it depend on. -/
def Routines.FreshStack (R : Routines Reg FReg) (s : State Reg FReg) (a : Word) : Prop :=
  Disjoint (R.scratch (s.cpu.gpr R.startStack)) (R.footprint a s.cpu.gpr) ∧
    ∀ σ ∈ s.contexts.suspended,
      Disjoint (R.scratch (s.cpu.gpr R.startStack)) (R.footprint σ.addr σ.gpr)

/-- One step of a thread whose driver keeps its record at `main`. -/
inductive Step (R : Routines Reg FReg) (main : Word) :
    State Reg FReg → Event Reg FReg → State Reg FReg → Prop where
  /-- Any code of the running context. -/
  | code {s : State Reg FReg} {cpu : Cpu Reg FReg} :
      (∀ σ ∈ s.contexts.suspended, ∀ x ∈ R.footprint σ.addr σ.gpr, cpu.mem x = s.cpu.mem x) →
      Step R main s (.code s.contexts.suspended s.cpu.fpr cpu.fpr) ⟨cpu, s.contexts⟩
  /-- The driver starts a procedure. -/
  | start {s : State Reg FReg} {procs : List (Entry Reg FReg × Suspension Reg FReg)}
      (ret next : Word) : s.contexts = .driving procs → s.cpu.gpr R.startFrom = main →
      R.Fresh s main → R.FreshStack s main →
      Step R main s .started
        ⟨R.start s.cpu ret next, .inProc ⟨s.cpu.gpr, s.cpu.fpr, ret, main⟩
          ⟨(R.start s.cpu ret next).gpr, (R.start s.cpu ret next).fpr, next⟩ procs⟩
  /-- The running procedure switches to the driver. -/
  | yield {s : State Reg FReg} {driver : Suspension Reg FReg} {entry : Entry Reg FReg}
      {procs : List (Entry Reg FReg × Suspension Reg FReg)} {a : Word} (ret : Word) :
      s.contexts = .inProc driver entry procs → s.cpu.gpr R.switchFrom = a →
      s.cpu.gpr R.switchTo = main → R.Fresh s a →
      Step R main s (.back driver (R.switch s.cpu ret))
        ⟨R.switch s.cpu ret, .driving ((entry, ⟨s.cpu.gpr, s.cpu.fpr, ret, a⟩) :: procs)⟩
  /-- The driver switches to the last suspended procedure. -/
  | resume {s : State Reg FReg} {entry : Entry Reg FReg} {last : Suspension Reg FReg}
      {procs : List (Entry Reg FReg × Suspension Reg FReg)} (ret : Word) :
      s.contexts = .driving ((entry, last) :: procs) → s.cpu.gpr R.switchFrom = main →
      s.cpu.gpr R.switchTo = last.addr → R.Fresh s main →
      Step R main s (.back last (R.switch s.cpu ret))
        ⟨R.switch s.cpu ret, .inProc ⟨s.cpu.gpr, s.cpu.fpr, ret, main⟩ entry procs⟩
  /-- The running procedure returns, with the registers a call preserves as they were
  when it was entered. -/
  | finish {s : State Reg FReg} {driver : Suspension Reg FReg} {entry : Entry Reg FReg}
      {procs : List (Entry Reg FReg × Suspension Reg FReg)} :
      s.contexts = .inProc driver entry procs → s.cpu.pc = entry.next →
      (∀ r ∈ R.calleeSaved, r ≠ R.sp → s.cpu.gpr r = entry.gpr r) →
      (∀ f ∈ R.floatCalleeSaved, s.cpu.fpr f = entry.fpr f) →
      Step R main s (.back driver (R.finish s.cpu)) ⟨R.finish s.cpu, .driving procs⟩

/-- A sequence of steps with its events. -/
inductive Run (R : Routines Reg FReg) (main : Word) :
    State Reg FReg → List (Event Reg FReg) → State Reg FReg → Prop where
  | nil (s : State Reg FReg) : Run R main s [] s
  | cons {s t u : State Reg FReg} {e : Event Reg FReg} {es : List (Event Reg FReg)} :
      Step R main s e t → Run R main t es u → Run R main s (e :: es) u

/-! ## What a transfer restores -/

variable {R : Routines Reg FReg} {main : Word}

/-- Control that comes back does so at the right place, with the integer registers as
they were. -/
def Event.Restores (R : Routines Reg FReg) : Event Reg FReg → Prop
  | .code _ _ _ | .started => True
  | .back σ cpu => cpu.pc = σ.ret ∧ ∀ r ∈ R.calleeSaved, cpu.gpr r = σ.gpr r

/-- Control that comes back finds the floating-point registers as they were. -/
def Event.RestoresFloats (R : Routines Reg FReg) : Event Reg FReg → Prop
  | .code _ _ _ | .started => True
  | .back σ cpu => ∀ f ∈ R.floatCalleeSaved, cpu.fpr f = σ.fpr f

/-- Code that runs while a context is suspended leaves the callee-saved
floating-point registers as it found them. -/
def Event.Quiet (R : Routines Reg FReg) : Event Reg FReg → Prop
  | .code waiting before after =>
      waiting = [] ∨ ∀ f ∈ R.floatCalleeSaved, after f = before f
  | .started | .back _ _ => True

/-- The invariant of a run: every suspended context is in memory, and every procedure
was entered with the driver's record in the anchor. -/
structure Held (R : Routines Reg FReg) (main : Word) (s : State Reg FReg) : Prop where
  suspends : ∀ σ ∈ s.contexts.suspended, R.Suspends s.cpu.mem σ.addr σ.gpr σ.ret
  anchors : ∀ entry ∈ s.contexts.entries, entry.gpr R.anchor = main
  driver : ∀ σ entry procs, s.contexts = .inProc σ entry procs → σ.addr = main

/-- Nothing is suspended yet. -/
theorem held_of_idle {s : State Reg FReg} (h : s.contexts = .driving []) : Held R main s where
  suspends := by simp [h, Contexts.suspended]
  anchors := by simp [h, Contexts.entries]
  driver := by simp [h]

/-- A suspended context stays in memory when its footprint does not change. -/
theorem Held.suspends_of_frame {s : State Reg FReg} {m : Memory} (h : Held R main s)
    {σ : Suspension Reg FReg} (hσ : σ ∈ s.contexts.suspended)
    (hm : ∀ x ∈ R.footprint σ.addr σ.gpr, m x = s.cpu.mem x) :
    R.Suspends m σ.addr σ.gpr σ.ret :=
  R.suspends_congr hm (h.suspends σ hσ)

/-- A call suspends its caller on top of contexts that stay in memory. -/
theorem Held.suspends_cons {s : State Reg FReg} {m : Memory} (h : Held R main s)
    {caller : Suspension Reg FReg} {waiting : List (Suspension Reg FReg)}
    (hcaller : R.Suspends m caller.addr caller.gpr caller.ret)
    (hwaiting : ∀ σ ∈ waiting, σ ∈ s.contexts.suspended)
    (hm : ∀ σ ∈ s.contexts.suspended, ∀ x ∈ R.footprint σ.addr σ.gpr, m x = s.cpu.mem x) :
    ∀ σ ∈ caller :: waiting, R.Suspends m σ.addr σ.gpr σ.ret := by
  intro σ hσ
  rcases List.mem_cons.mp hσ with rfl | hσ
  · exact hcaller
  · exact h.suspends_of_frame (hwaiting σ hσ) (hm σ (hwaiting σ hσ))

/-- The anchor of a procedure that returns as it was entered leads back to the driver. -/
theorem Held.suspends_anchor {s : State Reg FReg} (h : Held R main s)
    {driver : Suspension Reg FReg} {entry : Entry Reg FReg}
    {procs : List (Entry Reg FReg × Suspension Reg FReg)}
    (hctx : s.contexts = .inProc driver entry procs)
    (hgpr : ∀ r ∈ R.calleeSaved, r ≠ R.sp → s.cpu.gpr r = entry.gpr r) :
    R.Suspends s.cpu.mem (s.cpu.gpr R.anchor) driver.gpr driver.ret := by
  have hanchor : s.cpu.gpr R.anchor = driver.addr := by
    rw [hgpr _ R.anchor_mem R.anchor_ne_sp, h.driver _ _ _ hctx]
    exact h.anchors entry (by rw [hctx]; exact List.mem_cons_self)
  rw [hanchor]
  exact h.suspends driver (by rw [hctx]; exact List.mem_cons_self)

/-- One step keeps the invariant, and a context it comes back to is restored. -/
theorem Step.restores {s t : State Reg FReg} {e : Event Reg FReg} (hstep : Step R main s e t)
    (h : Held R main s) : Held R main t ∧ e.Restores R := by
  cases hstep with
  | code hmem =>
      refine ⟨⟨fun σ hσ => h.suspends_of_frame hσ (hmem σ hσ), h.anchors, h.driver⟩, trivial⟩
  | @start procs ret next hctx hfrom hfresh hstack =>
      obtain ⟨-, hanchor, -, hsus, hframe⟩ := R.start_spec ret next hfrom hfresh.1 hstack.1
      refine ⟨⟨h.suspends_cons hsus ?_ ?_, ?_, ?_⟩, trivial⟩
      · rw [hctx]
        exact fun σ hσ => hσ
      · exact fun σ hσ x hx => hframe x (Set.disjoint_right.mp (hfresh.2 σ hσ) hx)
          (Set.disjoint_right.mp (hstack.2 σ hσ) hx)
      · intro entry hentry
        rcases List.mem_cons.mp hentry with rfl | hentry
        · exact hanchor
        · exact h.anchors entry (by rw [hctx]; exact hentry)
      · rintro σ entry procs' heq
        cases heq
        rfl
  | @yield driver entry procs a ret hctx hfrom hto hfresh =>
      have hdriver : driver ∈ s.contexts.suspended := by
        rw [hctx]
        exact List.mem_cons_self
      have haddr := h.driver _ _ _ hctx
      obtain ⟨hpc, hgpr, -, hsus, hframe⟩ := R.switch_spec ret hfrom hto hfresh.1
        (haddr ▸ hfresh.2 driver hdriver) (haddr ▸ h.suspends driver hdriver)
      refine ⟨⟨h.suspends_cons hsus ?_ ?_, ?_, by rintro _ _ _ ⟨⟩⟩, hpc, hgpr⟩
      · rw [hctx]
        exact fun σ hσ => List.mem_cons_of_mem _ hσ
      · exact fun σ hσ x hx => hframe x (Set.disjoint_right.mp (hfresh.2 σ hσ) hx)
      · intro e he
        exact h.anchors e (by rw [hctx]; exact he)
  | @resume entry last procs ret hctx hfrom hto hfresh =>
      have hlast : last ∈ s.contexts.suspended := by
        rw [hctx]
        exact List.mem_cons_self
      obtain ⟨hpc, hgpr, -, hsus, hframe⟩ := R.switch_spec ret hfrom hto hfresh.1
        (hfresh.2 last hlast) (h.suspends last hlast)
      refine ⟨⟨h.suspends_cons hsus ?_ ?_, ?_, ?_⟩, hpc, hgpr⟩
      · rw [hctx]
        exact fun σ hσ => List.mem_cons_of_mem _ hσ
      · exact fun σ hσ x hx => hframe x (Set.disjoint_right.mp (hfresh.2 σ hσ) hx)
      · intro e he
        exact h.anchors e (by rw [hctx]; exact he)
      · rintro σ entry' procs' heq
        cases heq
        rfl
  | @finish driver entry procs hctx _ hgpr _ =>
      obtain ⟨hpc, hgpr', -, hmem⟩ := R.finish_spec (h.suspends_anchor hctx hgpr)
      refine ⟨⟨?_, ?_, by rintro _ _ _ ⟨⟩⟩, hpc, hgpr'⟩
      · intro σ hσ
        change R.Suspends (R.finish s.cpu).mem σ.addr σ.gpr σ.ret
        rw [hmem]
        exact h.suspends σ (by rw [hctx]; exact List.mem_cons_of_mem _ hσ)
      · intro e he
        exact h.anchors e (by rw [hctx]; exact List.mem_cons_of_mem _ he)

/-- In every run, a context that control comes back to goes on where its call returns,
with the integer registers as they were when it made the call. -/
theorem Run.restores {s t : State Reg FReg} {es : List (Event Reg FReg)} (hrun : Run R main s es t)
    (h : Held R main s) : ∀ e ∈ es, e.Restores R := by
  induction hrun with
  | nil s => simp
  | cons hstep _ ih =>
      obtain ⟨hheld, hrestores⟩ := hstep.restores h
      intro e he
      rcases List.mem_cons.mp he with rfl | he
      · exact hrestores
      · exact ih hheld e he

/-! ## The floating-point registers -/

/-- Every suspended context called with the callee-saved floating-point registers
that the processor has now. -/
def SameFloats (R : Routines Reg FReg) (s : State Reg FReg) : Prop :=
  ∀ σ ∈ s.contexts.suspended, ∀ f ∈ R.floatCalleeSaved, s.cpu.fpr f = σ.fpr f

/-- A transfer leaves the floating-point registers alone, so they are the same for the
contexts that waited before and for one that calls now. -/
theorem SameFloats.of_fpr_eq {s t : State Reg FReg} (hf : SameFloats R s)
    (hfpr : t.cpu.fpr = s.cpu.fpr)
    (hsus : ∀ σ ∈ t.contexts.suspended, σ.fpr = s.cpu.fpr ∨ σ ∈ s.contexts.suspended) :
    SameFloats R t := by
  intro σ hσ f hfmem
  rw [hfpr]
  rcases hsus σ hσ with hcaller | hwaiting
  · rw [hcaller]
  · exact hf σ hwaiting f hfmem

/-- A context finds the floating-point registers that a transfer left alone. -/
theorem SameFloats.restoresFloats {s : State Reg FReg} {cpu : Cpu Reg FReg} (hf : SameFloats R s)
    {σ : Suspension Reg FReg} (hσ : σ ∈ s.contexts.suspended) (hfpr : cpu.fpr = s.cpu.fpr) :
    (Event.back σ cpu).RestoresFloats R := by
  intro f hfmem
  rw [hfpr]
  exact hf σ hσ f hfmem

/-- One quiet step keeps them the same. -/
theorem Step.restoresFloats {s t : State Reg FReg} {e : Event Reg FReg}
    (hstep : Step R main s e t) (hquiet : e.Quiet R) (h : Held R main s) (hf : SameFloats R s) :
    SameFloats R t ∧ e.RestoresFloats R := by
  cases hstep with
  | code hmem =>
      refine ⟨fun σ hσ f hfmem => ?_, trivial⟩
      rcases hquiet with hnone | hquiet
      · rw [show s.contexts.suspended = [] from hnone] at hσ
        cases hσ
      · exact (hquiet f hfmem).trans (hf σ hσ f hfmem)
  | @start procs ret next hctx hfrom hfresh hstack =>
      obtain ⟨-, -, hfpr, -, -⟩ := R.start_spec ret next hfrom hfresh.1 hstack.1
      refine ⟨hf.of_fpr_eq hfpr fun σ hσ => ?_, trivial⟩
      rcases List.mem_cons.mp hσ with rfl | hσ
      · exact .inl rfl
      · exact .inr (by rw [hctx]; exact hσ)
  | @yield driver entry procs a ret hctx hfrom hto hfresh =>
      have hdriver : driver ∈ s.contexts.suspended := by
        rw [hctx]
        exact List.mem_cons_self
      have haddr := h.driver _ _ _ hctx
      obtain ⟨-, -, hfpr, -, -⟩ := R.switch_spec ret hfrom hto hfresh.1
        (haddr ▸ hfresh.2 driver hdriver) (haddr ▸ h.suspends driver hdriver)
      refine ⟨hf.of_fpr_eq hfpr fun σ hσ => ?_, hf.restoresFloats hdriver hfpr⟩
      rcases List.mem_cons.mp hσ with rfl | hσ
      · exact .inl rfl
      · exact .inr (by rw [hctx]; exact List.mem_cons_of_mem _ hσ)
  | @resume entry last procs ret hctx hfrom hto hfresh =>
      have hlast : last ∈ s.contexts.suspended := by
        rw [hctx]
        exact List.mem_cons_self
      obtain ⟨-, -, hfpr, -, -⟩ := R.switch_spec ret hfrom hto hfresh.1
        (hfresh.2 last hlast) (h.suspends last hlast)
      refine ⟨hf.of_fpr_eq hfpr fun σ hσ => ?_, hf.restoresFloats hlast hfpr⟩
      rcases List.mem_cons.mp hσ with rfl | hσ
      · exact .inl rfl
      · exact .inr (by rw [hctx]; exact List.mem_cons_of_mem _ hσ)
  | @finish driver entry procs hctx _ hgpr _ =>
      have hdriver : driver ∈ s.contexts.suspended := by
        rw [hctx]
        exact List.mem_cons_self
      obtain ⟨-, -, hfpr, -⟩ := R.finish_spec (h.suspends_anchor hctx hgpr)
      refine ⟨hf.of_fpr_eq hfpr fun σ hσ => .inr ?_, hf.restoresFloats hdriver hfpr⟩
      rw [hctx]
      exact List.mem_cons_of_mem _ hσ

/-- In a run of quiet steps the floating-point registers come back as well. -/
theorem Run.restoresFloats {s t : State Reg FReg} {es : List (Event Reg FReg)}
    (hrun : Run R main s es t) (hquiet : ∀ e ∈ es, e.Quiet R) (h : Held R main s)
    (hf : SameFloats R s) : ∀ e ∈ es, e.RestoresFloats R := by
  induction hrun with
  | nil s => simp
  | cons hstep _ ih =>
      have hheld := (hstep.restores h).1
      obtain ⟨hsame, hrestores⟩ :=
        hstep.restoresFloats (hquiet _ List.mem_cons_self) h hf
      intro e he
      rcases List.mem_cons.mp he with rfl | he
      · exact hrestores
      · exact ih (fun e he => hquiet e (List.mem_cons_of_mem _ he)) hheld hsame e he

/-- Without callee-saved floating-point registers there is nothing to restore. -/
theorem Event.restoresFloats_of_none (hnone : R.floatCalleeSaved = []) (e : Event Reg FReg) :
    e.RestoresFloats R := by
  cases e with
  | code _ _ _ | started => trivial
  | back σ cpu => simp [Event.RestoresFloats, hnone]

end ContextSwitch
