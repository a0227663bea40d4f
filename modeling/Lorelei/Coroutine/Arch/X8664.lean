import Lorelei.Lib.ContextSwitch
import Lorelei.Registers
import Mathlib.Logic.Function.Basic

/-!
# `coroutine_start` and `coroutine_switch` on x86_64

The two routines of `Coroutine_x86_64.S`, instruction by instruction, and what each
of them does to the registers and the memory.

The return address of a call is on the caller's stack, so a suspended context
depends on the eight bytes below its stack pointer as well as on its `RegState`.
-/

namespace Lorelei.Coroutine.X8664

open ByteMemory ContextSwitch Function Lorelei.X8664

abbrev Cpu := Machine.Cpu Reg XmmReg

/-- The instructions the routines use. -/
inductive Instr where
  /-- `mov %src, %dst` -/
  | mov (src dst : Reg)
  /-- `mov %src, disp(%base)` -/
  | store (src : Reg) (disp : Nat) (base : Reg)
  /-- `mov disp(%base), %dst` -/
  | load (disp : Nat) (base dst : Reg)
  /-- `call *%target` -/
  | call (target : Reg)
  | ret
deriving DecidableEq, Repr

/-- Push a return address. -/
def pushReturn (s : Cpu) (ret : Word) : Cpu :=
  { s with
    gpr := update s.gpr .rsp (s.gpr .rsp - 8)
    mem := store64 s.mem (s.gpr .rsp - 8) ret }

/-- Execute one instruction; `next` is the address after a call.  The program counter
is followed at calls and returns only. -/
def exec (next : Word) (s : Cpu) : Instr → Cpu
  | .mov src dst => { s with gpr := update s.gpr dst (s.gpr src) }
  | .store src disp base =>
      { s with mem := store64 s.mem (s.gpr base + BitVec.ofNat 64 disp) (s.gpr src) }
  | .load disp base dst =>
      { s with gpr := update s.gpr dst (load64 s.mem (s.gpr base + BitVec.ofNat 64 disp)) }
  | .call target => { pushReturn s next with pc := s.gpr target }
  | .ret =>
      { s with
        gpr := update s.gpr .rsp (s.gpr .rsp + 8)
        pc := load64 s.mem (s.gpr .rsp) }

/-- Execute straight-line code. -/
def run (next : Word) (code : List Instr) (s : Cpu) : Cpu := code.foldl (exec next) s

/-! ## The routines -/

/-- `RegState`, up to its unused `rip`. -/
def regState : List (Nat × Reg) :=
  [(0, .rbx), (8, .rsp), (16, .rbp), (24, .r12), (32, .r13), (40, .r14), (48, .r15)]

def sizeofRegState : Nat := 64

/-- The seven stores that save the registers to the `RegState` at `base`. -/
def saveRegs (base : Reg) : List Instr :=
  [.store .rbx 0 base, .store .rsp 8 base, .store .rbp 16 base, .store .r12 24 base,
    .store .r13 32 base, .store .r14 40 base, .store .r15 48 base]

/-- The seven loads that restore the registers from the `RegState` at `base`. -/
def loadRegs (base : Reg) : List Instr :=
  [.load 0 base .rbx, .load 8 base .rsp, .load 16 base .rbp, .load 24 base .r12,
    .load 32 base .r13, .load 40 base .r14, .load 48 base .r15]

/-- `coroutine_start` up to and with its call of `proc`. -/
def coroutineStart : List Instr :=
  saveRegs .r8 ++ [.mov .rcx .rsp, .mov .r8 .rbp, .call .rdx]

/-- `coroutine_start` after `proc` has returned. -/
def coroutineStartTail : List Instr := .mov .rbp .r8 :: loadRegs .r8 ++ [.ret]

def coroutineSwitch : List Instr :=
  saveRegs .rdi ++ loadRegs .rsi ++ [.mov .rdx .rax, .ret]

def start (s : Cpu) (ret next : Word) : Cpu := run next coroutineStart (pushReturn s ret)

def finish (s : Cpu) : Cpu := run 0 coroutineStartTail s

def switch (s : Cpu) (ret : Word) : Cpu := run 0 coroutineSwitch (pushReturn s ret)

/-! ## What they do -/

theorem offsets_regState : OffsetsWithin sizeofRegState (regState.map Prod.fst) where
  ordered := by decide
  within := by decide
  size := by decide

/-- The registers as the first instruction of a routine finds them. -/
def entryRegs (regs : Reg → Word) : Reg → Word := update regs .rsp (regs .rsp - 8)

def footprint (a : Word) (regs : Reg → Word) : Set Word :=
  block a sizeofRegState ∪ block (regs .rsp - 8) 8

/-- The `RegState` at `a` and the return address on the stack describe a caller. -/
def Suspends (m : Memory) (a : Word) (regs : Reg → Word) (ret : Word) : Prop :=
  Holds m a regState (entryRegs regs) ∧ load64 m (regs .rsp - 8) = ret

def WellPlaced (a : Word) (regs : Reg → Word) : Prop :=
  Disjoint (block a sizeofRegState) (block (regs .rsp - 8) 8)

theorem run_append (next : Word) (code code' : List Instr) (s : Cpu) :
    run next (code ++ code') s = run next code' (run next code s) := List.foldl_append

/-- The memory after a call has saved its caller's registers at `a`. -/
def savedMem (s : Cpu) (ret a : Word) : Memory :=
  writeFields (store64 s.mem (s.gpr .rsp - 8) ret) a (regFields regState (entryRegs s.gpr))

/-- A call that saves its caller's registers. -/
theorem run_saveRegs (next : Word) (base : Reg) (s : Cpu) (ret : Word) :
    run next (saveRegs base) (pushReturn s ret) =
      { s with
        gpr := entryRegs s.gpr
        mem := savedMem s ret (entryRegs s.gpr base) } := rfl

/-- Saving a caller's registers leaves the caller suspended. -/
theorem suspends_save {s : Cpu} {a : Word} (ret : Word) (h : WellPlaced a s.gpr) :
    Suspends (savedMem s ret a) a s.gpr ret := by
  constructor
  · exact holds_writeFields offsets_regState
  · have hslot : load64 (savedMem s ret a) (s.gpr .rsp - 8) =
        load64 (store64 s.mem (s.gpr .rsp - 8) ret) (s.gpr .rsp - 8) :=
      load64_congr fun x hx => saved_of_notMem offsets_regState (Set.disjoint_right.mp h hx)
    rw [hslot]
    exact load64_store64 _ _ _

/-- It changes nothing but the caller's footprint. -/
theorem savedMem_of_notMem {s : Cpu} {a x : Word} (ret : Word) (h : x ∉ footprint a s.gpr) :
    savedMem s ret a x = s.mem x := by
  rw [footprint, Set.mem_union, not_or] at h
  rw [savedMem, saved_of_notMem offsets_regState h.1]
  exact store64_of_notMem h.2

theorem suspends_congr {m m' : Memory} {a : Word} {regs : Reg → Word} {ret : Word}
    (hm : ∀ x ∈ footprint a regs, m' x = m x) (h : Suspends m a regs ret) :
    Suspends m' a regs ret := by
  constructor
  · exact h.1.congr offsets_regState fun x hx => hm x (Set.mem_union_left _ hx)
  · rw [load64_congr fun x hx => hm x (Set.mem_union_right _ hx)]
    exact h.2

/-- The registers that `loadRegs` restores. -/
theorem gpr_loadRegs {next : Word} {base : Reg} (s : Cpu) (hbase : base = .r8 ∨ base = .rsi) :
    ∀ f ∈ regState, (run next (loadRegs base) s).gpr f.2 =
      load64 s.mem (s.gpr base + BitVec.ofNat 64 f.1) := by
  rcases hbase with rfl | rfl <;> simp [regState, run, loadRegs, exec]

/-- Returning with a suspended caller's registers goes on in the caller. -/
theorem exec_ret {s : Cpu} {regs : Reg → Word} {back : Word}
    (hload : ∀ f ∈ regState, s.gpr f.2 = entryRegs regs f.2)
    (hslot : load64 s.mem (regs .rsp - 8) = back) :
    (exec 0 s .ret).pc = back ∧
      ∀ r ∈ regState.map Prod.snd, (exec 0 s .ret).gpr r = regs r := by
  have hsp : s.gpr .rsp = regs .rsp - 8 := by
    rw [hload (8, .rsp) (by decide)]
    simp [entryRegs]
  constructor
  · simp only [exec, hsp, hslot]
  · intro r hr
    obtain ⟨f, hf, rfl⟩ := List.mem_map.mp hr
    by_cases hrsp : f.2 = .rsp
    · simp [exec, hrsp, hsp, BitVec.sub_add_cancel]
    · simp [exec, hrsp, hload f hf, entryRegs]

/-- Restoring a suspended caller's registers. -/
theorem restore_caller {s : Cpu} {base : Reg} {regs : Reg → Word} {back : Word}
    (hbase : base = .r8 ∨ base = .rsi) (h : Suspends s.mem (s.gpr base) regs back) :
    ∀ f ∈ regState, (run 0 (loadRegs base) s).gpr f.2 = entryRegs regs f.2 := by
  intro f hf
  rw [gpr_loadRegs s hbase f hf]
  exact h.1 f hf

theorem start_spec {s : Cpu} {a : Word} (ret next : Word) (hfrom : s.gpr .r8 = a)
    (hplaced : WellPlaced a s.gpr) (hstack : Disjoint (block (s.gpr .rcx - 8) 8)
      (footprint a s.gpr)) :
    (start s ret next).pc = s.gpr .rdx ∧ (start s ret next).gpr .rbp = a ∧
      (start s ret next).fpr = s.fpr ∧ Suspends (start s ret next).mem a s.gpr ret ∧
      ∀ x, x ∉ footprint a s.gpr → x ∉ block (s.gpr .rcx - 8) 8 →
        (start s ret next).mem x = s.mem x := by
  have hr8 : entryRegs s.gpr .r8 = a := by simpa [entryRegs] using hfrom
  have heq : start s ret next = run next [.mov .rcx .rsp, .mov .r8 .rbp, .call .rdx]
      { s with
        gpr := entryRegs s.gpr
        mem := savedMem s ret a } := by
    rw [start, coroutineStart, run_append, run_saveRegs, hr8]
  have hmem : (start s ret next).mem = store64 (savedMem s ret a) (s.gpr .rcx - 8) next := by
    rw [heq]
    simp [run, exec, pushReturn, entryRegs]
  refine ⟨?_, ?_, by rw [heq]; rfl, ?_, fun x hx hx' => ?_⟩
  · rw [heq]
    simp [run, exec, entryRegs]
  · rw [heq]
    simp [run, exec, pushReturn, hr8]
  · rw [hmem]
    exact suspends_congr (fun x hx => store64_of_notMem (Set.disjoint_right.mp hstack hx))
      (suspends_save ret hplaced)
  · rw [hmem, store64_of_notMem hx']
    exact savedMem_of_notMem ret hx

theorem finish_spec {s : Cpu} {regs : Reg → Word} {ret : Word}
    (h : Suspends s.mem (s.gpr .rbp) regs ret) :
    (finish s).pc = ret ∧ (∀ r ∈ regState.map Prod.snd, (finish s).gpr r = regs r) ∧
      (finish s).fpr = s.fpr ∧ (finish s).mem = s.mem := by
  have heq : finish s = exec 0 (run 0 (loadRegs .r8) (exec 0 s (.mov .rbp .r8))) .ret := rfl
  have hr8 : (exec 0 s (.mov .rbp .r8)).gpr .r8 = s.gpr .rbp := by simp [exec]
  have hload := restore_caller (s := exec 0 s (.mov .rbp .r8)) (.inl rfl) (by rw [hr8]; exact h)
  obtain ⟨hpc, hgpr⟩ := exec_ret hload h.2
  rw [heq]
  exact ⟨hpc, hgpr, rfl, rfl⟩

theorem switch_spec {s : Cpu} {a b : Word} {regs : Reg → Word} {back : Word} (ret : Word)
    (hfrom : s.gpr .rdi = a) (hto : s.gpr .rsi = b) (hplaced : WellPlaced a s.gpr)
    (hdisj : Disjoint (footprint a s.gpr) (footprint b regs))
    (h : Suspends s.mem b regs back) :
    (switch s ret).pc = back ∧ (∀ r ∈ regState.map Prod.snd, (switch s ret).gpr r = regs r) ∧
      (switch s ret).fpr = s.fpr ∧ Suspends (switch s ret).mem a s.gpr ret ∧
      ∀ x, x ∉ footprint a s.gpr → (switch s ret).mem x = s.mem x := by
  have hrdi : entryRegs s.gpr .rdi = a := by simpa [entryRegs] using hfrom
  have hrsi : entryRegs s.gpr .rsi = b := by simpa [entryRegs] using hto
  have hsus : Suspends (savedMem s ret a) (entryRegs s.gpr .rsi) regs back := by
    rw [hrsi]
    exact suspends_congr (fun x hx => savedMem_of_notMem ret (Set.disjoint_right.mp hdisj hx)) h
  let saved : Cpu := { s with gpr := entryRegs s.gpr, mem := savedMem s ret a }
  have heq : switch s ret =
      exec 0 (exec 0 (run 0 (loadRegs .rsi) saved) (.mov .rdx .rax)) .ret := by
    rw [switch, coroutineSwitch, List.append_assoc, run_append, run_saveRegs, hrdi]
    rfl
  have hload : ∀ f ∈ regState, (exec 0 (run 0 (loadRegs .rsi) saved) (.mov .rdx .rax)).gpr f.2 =
      entryRegs regs f.2 := by
    intro f hf
    have hrax : f.2 ≠ .rax := (by decide : ∀ f ∈ regState, f.2 ≠ .rax) f hf
    rw [← restore_caller (s := saved) (.inr rfl) hsus f hf]
    exact update_of_ne hrax _ _
  obtain ⟨hpc, hgpr⟩ := exec_ret hload hsus.2
  rw [heq]
  refine ⟨hpc, hgpr, rfl, ?_, fun x hx => ?_⟩
  · exact suspends_save ret hplaced
  · exact savedMem_of_notMem ret hx

/-- The routines, with the registers the System V ABI calls callee-saved. -/
def routines : Routines Reg XmmReg where
  sp := .rsp
  calleeSaved := [.rbx, .rsp, .rbp, .r12, .r13, .r14, .r15]
  floatCalleeSaved := []
  anchor := .rbp
  anchor_mem := by decide
  anchor_ne_sp := by decide
  startFrom := .r8
  startProc := .rdx
  startStack := .rcx
  switchFrom := .rdi
  switchTo := .rsi
  footprint := footprint
  WellPlaced := WellPlaced
  scratch stack := block (stack - 8) 8
  Suspends := Suspends
  start := start
  finish := finish
  switch := switch
  suspends_congr := suspends_congr
  start_spec := start_spec
  finish_spec := finish_spec
  switch_spec := switch_spec

end Lorelei.Coroutine.X8664
