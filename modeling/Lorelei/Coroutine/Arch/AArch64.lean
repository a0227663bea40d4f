import Lorelei.Lib.ContextSwitch
import Lorelei.Registers
import Mathlib.Logic.Function.Basic

/-!
# `coroutine_start` and `coroutine_switch` on aarch64

The two routines of `Coroutine_aarch64.S`, instruction by instruction, and what each
of them does to the registers and the memory.

The return address of a call is in `x30`, which the routines save with the
callee-saved registers, so a suspended context depends on its `RegState` only.  The
routines touch no floating-point register.
-/

namespace Lorelei.Coroutine.AArch64

open ByteMemory ContextSwitch Function Lorelei.AArch64

abbrev Cpu := Machine.Cpu Reg DReg

/-- The instructions the routines use. -/
inductive Instr where
  /-- `stp t1, t2, [base, #off]` -/
  | stp (t1 t2 base : Reg) (off : Nat)
  /-- `ldp t1, t2, [base, #off]` -/
  | ldp (t1 t2 base : Reg) (off : Nat)
  /-- `str t, [base, #off]` -/
  | str (t base : Reg) (off : Nat)
  /-- `ldr t, [base, #off]` -/
  | ldr (t base : Reg) (off : Nat)
  /-- `mov dst, src` -/
  | mov (dst src : Reg)
  | blr (target : Reg)
  | ret
deriving DecidableEq, Repr

/-- Link a return address. -/
def link (s : Cpu) (ret : Word) : Cpu := { s with gpr := update s.gpr (.x 30) ret }

/-- Execute one instruction; `next` is the address after a call.  The program counter
is followed at calls and returns only. -/
def exec (next : Word) (s : Cpu) : Instr → Cpu
  | .stp t1 t2 base off =>
      { s with
        mem := store64 (store64 s.mem (s.gpr base + BitVec.ofNat 64 off) (s.gpr t1))
          (s.gpr base + BitVec.ofNat 64 (off + 8)) (s.gpr t2) }
  | .ldp t1 t2 base off =>
      { s with
        gpr := update (update s.gpr t1 (load64 s.mem (s.gpr base + BitVec.ofNat 64 off))) t2
          (load64 s.mem (s.gpr base + BitVec.ofNat 64 (off + 8))) }
  | .str t base off =>
      { s with mem := store64 s.mem (s.gpr base + BitVec.ofNat 64 off) (s.gpr t) }
  | .ldr t base off =>
      { s with gpr := update s.gpr t (load64 s.mem (s.gpr base + BitVec.ofNat 64 off)) }
  | .mov dst src => { s with gpr := update s.gpr dst (s.gpr src) }
  | .blr target => { link s next with pc := s.gpr target }
  | .ret => { s with pc := s.gpr (.x 30) }

/-- Execute straight-line code. -/
def run (next : Word) (code : List Instr) (s : Cpu) : Cpu := code.foldl (exec next) s

/-! ## The routines -/

/-- `RegState`, up to its unused `pc`; `lr` is `x30`. -/
def regState : List (Nat × Reg) :=
  [(0, .x 19), (8, .x 20), (16, .x 21), (24, .x 22), (32, .x 23), (40, .x 24), (48, .x 25),
    (56, .x 26), (64, .x 27), (72, .x 28), (80, .x 29), (88, .x 30), (96, .sp)]

def sizeofRegState : Nat := 112

/-- The stores that save the registers to the `RegState` at `base`. -/
def saveRegs (base : Reg) : List Instr :=
  [.stp (.x 19) (.x 20) base 0, .stp (.x 21) (.x 22) base 16, .stp (.x 23) (.x 24) base 32,
    .stp (.x 25) (.x 26) base 48, .stp (.x 27) (.x 28) base 64, .stp (.x 29) (.x 30) base 80,
    .mov (.x 9) .sp, .str (.x 9) base 96]

/-- The loads that restore the registers from the `RegState` at `base`. -/
def loadRegs (base : Reg) : List Instr :=
  [.ldp (.x 19) (.x 20) base 0, .ldp (.x 21) (.x 22) base 16, .ldp (.x 23) (.x 24) base 32,
    .ldp (.x 25) (.x 26) base 48, .ldp (.x 27) (.x 28) base 64, .ldp (.x 29) (.x 30) base 80,
    .ldr (.x 9) base 96, .mov .sp (.x 9)]

/-- `coroutine_start` up to and with its call of `proc`. -/
def coroutineStart : List Instr :=
  saveRegs (.x 4) ++ [.mov .sp (.x 3), .mov (.x 19) (.x 4), .blr (.x 2)]

/-- `coroutine_start` after `proc` has returned. -/
def coroutineStartTail : List Instr := .mov (.x 4) (.x 19) :: loadRegs (.x 4) ++ [.ret]

def coroutineSwitch : List Instr :=
  saveRegs (.x 0) ++ loadRegs (.x 1) ++ [.mov (.x 0) (.x 2), .ret]

def start (s : Cpu) (ret next : Word) : Cpu := run next coroutineStart (link s ret)

def finish (s : Cpu) : Cpu := run 0 coroutineStartTail s

def switch (s : Cpu) (ret : Word) : Cpu := run 0 coroutineSwitch (link s ret)

/-- The integer registers the AAPCS64 calls callee-saved, and the stack pointer. -/
def calleeSaved : List Reg :=
  [.x 19, .x 20, .x 21, .x 22, .x 23, .x 24, .x 25, .x 26, .x 27, .x 28, .x 29, .sp]

/-- The floating-point registers the AAPCS64 calls callee-saved. -/
def floatCalleeSaved : List DReg := [8, 9, 10, 11, 12, 13, 14, 15]

/-! ## What they do -/

theorem offsets_regState : OffsetsWithin sizeofRegState (regState.map Prod.fst) where
  ordered := by decide
  within := by decide
  size := by decide

/-- The registers as the first instruction of a routine finds them. -/
def entryRegs (regs : Reg → Word) (ret : Word) : Reg → Word := update regs (.x 30) ret

def footprint (a : Word) (_ : Reg → Word) : Set Word := block a sizeofRegState

/-- The `RegState` at `a` describes a caller. -/
def Suspends (m : Memory) (a : Word) (regs : Reg → Word) (ret : Word) : Prop :=
  Holds m a regState (entryRegs regs ret)

theorem run_append (next : Word) (code code' : List Instr) (s : Cpu) :
    run next (code ++ code') s = run next code' (run next code s) := List.foldl_append

/-- The memory after a call has saved its caller's registers at `a`. -/
def savedMem (s : Cpu) (ret a : Word) : Memory :=
  writeFields s.mem a (regFields regState (entryRegs s.gpr ret))

/-- A call that saves its caller's registers. -/
theorem run_saveRegs {next : Word} {base : Reg} (s : Cpu) (ret : Word)
    (hbase : base = .x 4 ∨ base = .x 0) :
    run next (saveRegs base) (link s ret) =
      { s with
        gpr := update (entryRegs s.gpr ret) (.x 9) (s.gpr .sp)
        mem := savedMem s ret (s.gpr base) } := by
  rcases hbase with rfl | rfl
  · rfl
  · rfl

/-- Saving a caller's registers leaves the caller suspended. -/
theorem suspends_save (s : Cpu) (ret a : Word) : Suspends (savedMem s ret a) a s.gpr ret :=
  holds_writeFields offsets_regState

/-- It changes nothing but the caller's footprint. -/
theorem savedMem_of_notMem {s : Cpu} {a x : Word} (ret : Word) (h : x ∉ footprint a s.gpr) :
    savedMem s ret a x = s.mem x := saved_of_notMem offsets_regState h

theorem suspends_congr {m m' : Memory} {a : Word} {regs : Reg → Word} {ret : Word}
    (hm : ∀ x ∈ footprint a regs, m' x = m x) (h : Suspends m a regs ret) :
    Suspends m' a regs ret := h.congr offsets_regState hm

/-- The registers that `loadRegs` restores. -/
theorem gpr_loadRegs {next : Word} {base : Reg} (s : Cpu) (hbase : base = .x 4 ∨ base = .x 1) :
    ∀ f ∈ regState, (run next (loadRegs base) s).gpr f.2 =
      load64 s.mem (s.gpr base + BitVec.ofNat 64 f.1) := by
  rcases hbase with rfl | rfl <;> simp [regState, run, loadRegs, exec]

/-- Returning with a suspended caller's registers goes on in the caller. -/
theorem exec_ret {s : Cpu} {regs : Reg → Word} {back : Word}
    (hload : ∀ f ∈ regState, s.gpr f.2 = entryRegs regs back f.2) :
    (exec 0 s .ret).pc = back ∧ ∀ r ∈ calleeSaved, (exec 0 s .ret).gpr r = regs r := by
  have hmem : ∀ r ∈ calleeSaved, ∃ f ∈ regState, f.2 = r ∧ f.2 ≠ .x 30 := by decide
  constructor
  · change s.gpr (.x 30) = back
    rw [hload (88, .x 30) (by decide)]
    simp [entryRegs]
  · intro r hr
    obtain ⟨f, hf, rfl, hne⟩ := hmem r hr
    change s.gpr f.2 = regs f.2
    rw [hload f hf]
    exact update_of_ne hne _ _

/-- Restoring a suspended caller's registers. -/
theorem restore_caller {s : Cpu} {base : Reg} {regs : Reg → Word} {back : Word}
    (hbase : base = .x 4 ∨ base = .x 1) (h : Suspends s.mem (s.gpr base) regs back) :
    ∀ f ∈ regState, (run 0 (loadRegs base) s).gpr f.2 = entryRegs regs back f.2 := by
  intro f hf
  rw [gpr_loadRegs s hbase f hf]
  exact h f hf

theorem start_spec {s : Cpu} {a : Word} (ret next : Word) (hfrom : s.gpr (.x 4) = a) :
    (start s ret next).pc = s.gpr (.x 2) ∧ (start s ret next).gpr (.x 19) = a ∧
      (start s ret next).fpr = s.fpr ∧ Suspends (start s ret next).mem a s.gpr ret ∧
      ∀ x, x ∉ footprint a s.gpr → (start s ret next).mem x = s.mem x := by
  have heq : start s ret next =
      run next [.mov .sp (.x 3), .mov (.x 19) (.x 4), .blr (.x 2)]
        { s with
          gpr := update (entryRegs s.gpr ret) (.x 9) (s.gpr .sp)
          mem := savedMem s ret a } := by
    rw [start, coroutineStart, run_append, run_saveRegs s ret (.inl rfl), hfrom]
  rw [heq]
  refine ⟨?_, ?_, rfl, suspends_save s ret a, fun x hx => savedMem_of_notMem ret hx⟩
  · simp [run, exec, entryRegs]
  · simp [run, exec, link, entryRegs, hfrom]

theorem finish_spec {s : Cpu} {regs : Reg → Word} {ret : Word}
    (h : Suspends s.mem (s.gpr (.x 19)) regs ret) :
    (finish s).pc = ret ∧ (∀ r ∈ calleeSaved, (finish s).gpr r = regs r) ∧
      (finish s).fpr = s.fpr ∧ (finish s).mem = s.mem := by
  have heq : finish s = exec 0 (run 0 (loadRegs (.x 4)) (exec 0 s (.mov (.x 4) (.x 19)))) .ret :=
    rfl
  have hx4 : (exec 0 s (.mov (.x 4) (.x 19))).gpr (.x 4) = s.gpr (.x 19) := by simp [exec]
  have hload := restore_caller (s := exec 0 s (.mov (.x 4) (.x 19))) (.inl rfl)
    (by rw [hx4]; exact h)
  obtain ⟨hpc, hgpr⟩ := exec_ret hload
  rw [heq]
  exact ⟨hpc, hgpr, rfl, rfl⟩

theorem switch_spec {s : Cpu} {a b : Word} {regs : Reg → Word} {back : Word} (ret : Word)
    (hfrom : s.gpr (.x 0) = a) (hto : s.gpr (.x 1) = b)
    (hdisj : Disjoint (footprint a s.gpr) (footprint b regs)) (h : Suspends s.mem b regs back) :
    (switch s ret).pc = back ∧ (∀ r ∈ calleeSaved, (switch s ret).gpr r = regs r) ∧
      (switch s ret).fpr = s.fpr ∧ Suspends (switch s ret).mem a s.gpr ret ∧
      ∀ x, x ∉ footprint a s.gpr → (switch s ret).mem x = s.mem x := by
  let saved : Cpu :=
    { s with
      gpr := update (entryRegs s.gpr ret) (.x 9) (s.gpr .sp)
      mem := savedMem s ret a }
  have hx1 : saved.gpr (.x 1) = b := by simpa [saved, entryRegs] using hto
  have hsus : Suspends saved.mem (saved.gpr (.x 1)) regs back := by
    rw [hx1]
    exact suspends_congr (fun x hx => savedMem_of_notMem ret (Set.disjoint_right.mp hdisj hx)) h
  have heq : switch s ret =
      exec 0 (exec 0 (run 0 (loadRegs (.x 1)) saved) (.mov (.x 0) (.x 2))) .ret := by
    rw [switch, coroutineSwitch, List.append_assoc, run_append, run_saveRegs s ret (.inr rfl),
      hfrom]
    rfl
  have hload : ∀ f ∈ regState,
      (exec 0 (run 0 (loadRegs (.x 1)) saved) (.mov (.x 0) (.x 2))).gpr f.2 =
        entryRegs regs back f.2 := by
    intro f hf
    have hx0 : f.2 ≠ .x 0 := (by decide : ∀ f ∈ regState, f.2 ≠ .x 0) f hf
    rw [← restore_caller (.inr rfl) hsus f hf]
    exact update_of_ne hx0 _ _
  obtain ⟨hpc, hgpr⟩ := exec_ret hload
  rw [heq]
  exact ⟨hpc, hgpr, rfl, suspends_save s ret a, fun x hx => savedMem_of_notMem ret hx⟩

def routines : Routines Reg DReg where
  sp := .sp
  calleeSaved := calleeSaved
  floatCalleeSaved := floatCalleeSaved
  anchor := .x 19
  anchor_mem := by decide
  anchor_ne_sp := by decide
  startFrom := .x 4
  startProc := .x 2
  startStack := .x 3
  switchFrom := .x 0
  switchTo := .x 1
  footprint := footprint
  WellPlaced _ _ := True
  scratch _ := ∅
  Suspends := Suspends
  start := start
  finish := finish
  switch := switch
  suspends_congr := suspends_congr
  start_spec ret next hfrom _ _ := by
    obtain ⟨hpc, hanchor, hfpr, hsus, hframe⟩ := start_spec ret next hfrom
    exact ⟨hpc, hanchor, hfpr, hsus, fun x hx _ => hframe x hx⟩
  finish_spec := finish_spec
  switch_spec ret hfrom hto _ hdisj h := switch_spec ret hfrom hto hdisj h

end Lorelei.Coroutine.AArch64
