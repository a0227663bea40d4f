import Lorelei.Lib.ContextSwitch
import Lorelei.Registers
import Mathlib.Logic.Function.Basic

/-!
# `coroutine_start` and `coroutine_switch` on riscv64

The two routines of `Coroutine_riscv64.S`, instruction by instruction, and what each
of them does to the registers and the memory.

The return address of a call is in `ra`, which the routines save with the
callee-saved registers.  The routines touch no floating-point register.
-/

namespace Lorelei.Coroutine.RiscV64

open ByteMemory ContextSwitch Function Lorelei.RiscV64

abbrev Cpu := Machine.Cpu Reg FReg

/-- The instructions the routines use. -/
inductive Instr where
  /-- `sd src, off(base)` -/
  | sd (src : Reg) (off : Nat) (base : Reg)
  /-- `ld dst, off(base)` -/
  | ld (dst : Reg) (off : Nat) (base : Reg)
  | mv (dst src : Reg)
  /-- `jalr link, off(target)` -/
  | jalr (link : Reg) (off : Nat) (target : Reg)
  | ret
deriving DecidableEq, Repr

/-- Link a return address. -/
def link (s : Cpu) (ret : Word) : Cpu := { s with gpr := update s.gpr .ra ret }

/-- Execute one instruction; `next` is the address after a call.  The program counter
is followed at calls and returns only; code addresses are even, so that the lowest
bit, which a jump clears, is never set. -/
def exec (next : Word) (s : Cpu) : Instr → Cpu
  | .sd src off base =>
      { s with mem := store64 s.mem (s.gpr base + BitVec.ofNat 64 off) (s.gpr src) }
  | .ld dst off base =>
      { s with gpr := update s.gpr dst (load64 s.mem (s.gpr base + BitVec.ofNat 64 off)) }
  | .mv dst src => { s with gpr := update s.gpr dst (s.gpr src) }
  | .jalr link off target =>
      { s with
        gpr := update s.gpr link next
        pc := s.gpr target + BitVec.ofNat 64 off }
  | .ret => { s with pc := s.gpr .ra }

/-- Execute straight-line code. -/
def run (next : Word) (code : List Instr) (s : Cpu) : Cpu := code.foldl (exec next) s

/-! ## The routines -/

/-- `RegState`, up to its unused `pc`. -/
def regState : List (Nat × Reg) :=
  [(0, .s0), (8, .s1), (16, .s2), (24, .s3), (32, .s4), (40, .s5), (48, .s6), (56, .s7),
    (64, .s8), (72, .s9), (80, .s10), (88, .s11), (96, .sp), (104, .ra)]

def sizeofRegState : Nat := 120

/-- The stores that save the registers to the `RegState` at `base`. -/
def saveRegs (base : Reg) : List Instr :=
  [.sd .s0 0 base, .sd .s1 8 base, .sd .s2 16 base, .sd .s3 24 base, .sd .s4 32 base,
    .sd .s5 40 base, .sd .s6 48 base, .sd .s7 56 base, .sd .s8 64 base, .sd .s9 72 base,
    .sd .s10 80 base, .sd .s11 88 base, .sd .sp 96 base, .sd .ra 104 base]

/-- The loads that restore the registers from the `RegState` at `base`. -/
def loadRegs (base : Reg) : List Instr :=
  [.ld .s0 0 base, .ld .s1 8 base, .ld .s2 16 base, .ld .s3 24 base, .ld .s4 32 base,
    .ld .s5 40 base, .ld .s6 48 base, .ld .s7 56 base, .ld .s8 64 base, .ld .s9 72 base,
    .ld .s10 80 base, .ld .s11 88 base, .ld .sp 96 base, .ld .ra 104 base]

/-- `coroutine_start` up to and with its call of `proc`. -/
def coroutineStart : List Instr :=
  saveRegs .a4 ++ [.mv .sp .a3, .mv .s0 .a4, .jalr .ra 0 .a2]

/-- `coroutine_start` after `proc` has returned. -/
def coroutineStartTail : List Instr := .mv .a4 .s0 :: loadRegs .a4 ++ [.ret]

def coroutineSwitch : List Instr :=
  saveRegs .a0 ++ loadRegs .a1 ++ [.mv .a0 .a2, .ret]

def start (s : Cpu) (ret next : Word) : Cpu := run next coroutineStart (link s ret)

def finish (s : Cpu) : Cpu := run 0 coroutineStartTail s

def switch (s : Cpu) (ret : Word) : Cpu := run 0 coroutineSwitch (link s ret)

/-- The integer registers the RISC-V ABI calls callee-saved, and the stack pointer. -/
def calleeSaved : List Reg :=
  [.s0, .s1, .s2, .s3, .s4, .s5, .s6, .s7, .s8, .s9, .s10, .s11, .sp]

/-- `fs0` to `fs11`, the floating-point registers the RISC-V ABI calls callee-saved. -/
def floatCalleeSaved : List FReg := [8, 9, 18, 19, 20, 21, 22, 23, 24, 25, 26, 27]

/-! ## What they do -/

theorem offsets_regState : OffsetsWithin sizeofRegState (regState.map Prod.fst) where
  ordered := by decide
  within := by decide
  size := by decide

/-- The registers as the first instruction of a routine finds them. -/
def entryRegs (regs : Reg → Word) (ret : Word) : Reg → Word := update regs .ra ret

def footprint (a : Word) (_ : Reg → Word) : Set Word := block a sizeofRegState

/-- The `RegState` at `a` describes a caller. -/
def Suspends (m : Memory) (a : Word) (regs : Reg → Word) (ret : Word) : Prop :=
  Holds m a regState (entryRegs regs ret)

theorem run_append (next : Word) (code code' : List Instr) (s : Cpu) :
    run next (code ++ code') s = run next code' (run next code s) := List.foldl_append

/-- The memory after a call has saved its caller's registers at `a`. -/
def savedMem (s : Cpu) (ret a : Word) : Memory :=
  writeFields s.mem a (regFields regState (entryRegs s.gpr ret))

/-- A call that saves its caller's registers. -/
theorem run_saveRegs {next : Word} {base : Reg} (s : Cpu) (ret : Word) :
    run next (saveRegs base) (link s ret) =
      { s with
        gpr := entryRegs s.gpr ret
        mem := savedMem s ret (entryRegs s.gpr ret base) } := rfl

/-- Saving a caller's registers leaves the caller suspended. -/
theorem suspends_save (s : Cpu) (ret a : Word) : Suspends (savedMem s ret a) a s.gpr ret :=
  holds_writeFields offsets_regState

/-- It changes nothing but the caller's footprint. -/
theorem savedMem_of_notMem {s : Cpu} {a x : Word} (ret : Word) (h : x ∉ footprint a s.gpr) :
    savedMem s ret a x = s.mem x := saved_of_notMem offsets_regState h

theorem suspends_congr {m m' : Memory} {a : Word} {regs : Reg → Word} {ret : Word}
    (hm : ∀ x ∈ footprint a regs, m' x = m x) (h : Suspends m a regs ret) :
    Suspends m' a regs ret := h.congr offsets_regState hm

/-- The registers that `loadRegs` restores. -/
theorem gpr_loadRegs {next : Word} {base : Reg} (s : Cpu) (hbase : base = .a4 ∨ base = .a1) :
    ∀ f ∈ regState, (run next (loadRegs base) s).gpr f.2 =
      load64 s.mem (s.gpr base + BitVec.ofNat 64 f.1) := by
  rcases hbase with rfl | rfl <;> simp [regState, run, loadRegs, exec]

/-- Returning with a suspended caller's registers goes on in the caller. -/
theorem exec_ret {s : Cpu} {regs : Reg → Word} {back : Word}
    (hload : ∀ f ∈ regState, s.gpr f.2 = entryRegs regs back f.2) :
    (exec 0 s .ret).pc = back ∧ ∀ r ∈ calleeSaved, (exec 0 s .ret).gpr r = regs r := by
  have hmem : ∀ r ∈ calleeSaved, ∃ f ∈ regState, f.2 = r ∧ f.2 ≠ .ra := by decide
  constructor
  · change s.gpr .ra = back
    rw [hload (104, .ra) (by decide)]
    simp [entryRegs]
  · intro r hr
    obtain ⟨f, hf, rfl, hne⟩ := hmem r hr
    change s.gpr f.2 = regs f.2
    rw [hload f hf]
    exact update_of_ne hne _ _

/-- Restoring a suspended caller's registers. -/
theorem restore_caller {s : Cpu} {base : Reg} {regs : Reg → Word} {back : Word}
    (hbase : base = .a4 ∨ base = .a1) (h : Suspends s.mem (s.gpr base) regs back) :
    ∀ f ∈ regState, (run 0 (loadRegs base) s).gpr f.2 = entryRegs regs back f.2 := by
  intro f hf
  rw [gpr_loadRegs s hbase f hf]
  exact h f hf

theorem start_spec {s : Cpu} {a : Word} (ret next : Word) (hfrom : s.gpr .a4 = a) :
    (start s ret next).pc = s.gpr .a2 ∧ (start s ret next).gpr .s0 = a ∧
      (start s ret next).fpr = s.fpr ∧ Suspends (start s ret next).mem a s.gpr ret ∧
      ∀ x, x ∉ footprint a s.gpr → (start s ret next).mem x = s.mem x := by
  have hentry : entryRegs s.gpr ret .a4 = a := by simpa [entryRegs] using hfrom
  have heq : start s ret next =
      run next [.mv .sp .a3, .mv .s0 .a4, .jalr .ra 0 .a2]
        { s with
          gpr := entryRegs s.gpr ret
          mem := savedMem s ret a } := by
    rw [start, coroutineStart, run_append, run_saveRegs s ret, hentry]
  rw [heq]
  refine ⟨?_, ?_, rfl, suspends_save s ret a, fun x hx => savedMem_of_notMem ret hx⟩
  · simp [run, exec, entryRegs]
  · simp [run, exec, entryRegs, hfrom]

theorem finish_spec {s : Cpu} {regs : Reg → Word} {ret : Word}
    (h : Suspends s.mem (s.gpr .s0) regs ret) :
    (finish s).pc = ret ∧ (∀ r ∈ calleeSaved, (finish s).gpr r = regs r) ∧
      (finish s).fpr = s.fpr ∧ (finish s).mem = s.mem := by
  have heq : finish s = exec 0 (run 0 (loadRegs .a4) (exec 0 s (.mv .a4 .s0))) .ret :=
    rfl
  have ha4 : (exec 0 s (.mv .a4 .s0)).gpr .a4 = s.gpr .s0 := by simp [exec]
  have hload := restore_caller (s := exec 0 s (.mv .a4 .s0)) (.inl rfl)
    (by rw [ha4]; exact h)
  obtain ⟨hpc, hgpr⟩ := exec_ret hload
  rw [heq]
  exact ⟨hpc, hgpr, rfl, rfl⟩

theorem switch_spec {s : Cpu} {a b : Word} {regs : Reg → Word} {back : Word} (ret : Word)
    (hfrom : s.gpr .a0 = a) (hto : s.gpr .a1 = b)
    (hdisj : Disjoint (footprint a s.gpr) (footprint b regs)) (h : Suspends s.mem b regs back) :
    (switch s ret).pc = back ∧ (∀ r ∈ calleeSaved, (switch s ret).gpr r = regs r) ∧
      (switch s ret).fpr = s.fpr ∧ Suspends (switch s ret).mem a s.gpr ret ∧
      ∀ x, x ∉ footprint a s.gpr → (switch s ret).mem x = s.mem x := by
  let saved : Cpu :=
    { s with
      gpr := entryRegs s.gpr ret
      mem := savedMem s ret a }
  have ha1 : saved.gpr .a1 = b := by simpa [saved, entryRegs] using hto
  have hsus : Suspends saved.mem (saved.gpr .a1) regs back := by
    rw [ha1]
    exact suspends_congr (fun x hx => savedMem_of_notMem ret (Set.disjoint_right.mp hdisj hx)) h
  have hentry : entryRegs s.gpr ret .a0 = a := by simpa [entryRegs] using hfrom
  have heq : switch s ret =
      exec 0 (exec 0 (run 0 (loadRegs .a1) saved) (.mv .a0 .a2)) .ret := by
    rw [switch, coroutineSwitch, List.append_assoc, run_append, run_saveRegs s ret, hentry]
    rfl
  have hload : ∀ f ∈ regState,
      (exec 0 (run 0 (loadRegs .a1) saved) (.mv .a0 .a2)).gpr f.2 =
        entryRegs regs back f.2 := by
    intro f hf
    have ha0 : f.2 ≠ .a0 := (by decide : ∀ f ∈ regState, f.2 ≠ .a0) f hf
    rw [← restore_caller (.inr rfl) hsus f hf]
    exact update_of_ne ha0 _ _
  obtain ⟨hpc, hgpr⟩ := exec_ret hload
  rw [heq]
  exact ⟨hpc, hgpr, rfl, suspends_save s ret a, fun x hx => savedMem_of_notMem ret hx⟩

def routines : Routines Reg FReg where
  sp := .sp
  calleeSaved := calleeSaved
  floatCalleeSaved := floatCalleeSaved
  anchor := .s0
  anchor_mem := by decide
  anchor_ne_sp := by decide
  startFrom := .a4
  startProc := .a2
  startStack := .a3
  switchFrom := .a0
  switchTo := .a1
  footprint := footprint
  WellPlaced _ _ := True
  scratch _ := ∅
  Suspends := Suspends
  start := start
  finish := finish
  switch := switch
  suspends_congr := suspends_congr
  start_spec ret next hfrom _ _ := by
    obtain ⟨hpc, hanchor, hfpr, hsus, hframe⟩ := start_spec ret next hfrom
    exact ⟨hpc, hanchor, hfpr, hsus, fun x hx _ => hframe x hx⟩
  finish_spec := finish_spec
  switch_spec ret hfrom hto _ hdisj h := switch_spec ret hfrom hto hdisj h

end Lorelei.Coroutine.RiscV64
