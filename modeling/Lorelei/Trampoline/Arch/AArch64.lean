import Lorelei.Trampoline.Platform
import Mathlib.Logic.Function.Basic

/-!
# Stubs on aarch64

The code that `tramp_gen_thunk` generates, decoded from its bytes, and the shim of
`Trampoline_shim_aarch64.S`.  The shim holds the thread pointer in `x8`, which carries
the address of the result of a call that returns a structure in memory.
-/

namespace Lorelei.Trampoline.AArch64

open ByteMemory Machine Function Lorelei.AArch64

abbrev Cpu := Machine.Cpu Reg DReg

/-- The instructions of the stubs and the shim. -/
inductive Instr where
  /-- `ldr t, #off` -/
  | ldrLiteral (t : Reg) (off : BitVec 21)
  | br (n : Reg)
  /-- `adrp d, :gottprel:thread_last_callback` -/
  | adrpGottprel (d : Reg)
  /-- `ldr t, [n, #:gottprel_lo12:thread_last_callback]` -/
  | ldrGottprelLo12 (t n : Reg)
  /-- `mrs t, tpidr_el0` -/
  | mrsTpidr (t : Reg)
  /-- `str t, [n, m]` -/
  | strRegister (t n m : Reg)
deriving DecidableEq, Repr

/-- Number 31 is the zero register where it is not the stack pointer. -/
def register (n : BitVec 5) : Option Reg :=
  if h : n.toNat < 31 then some (.x ⟨n.toNat, h⟩) else none

def decodeWord (w : BitVec 32) : Option Instr :=
  if w.extractLsb' 24 8 = 0x58 then
    (register (w.extractLsb' 0 5)).map fun t => .ldrLiteral t (w.extractLsb' 5 19 ++ 0#2)
  else if w &&& 0xFFFFFC1F = 0xD61F0000 then (register (w.extractLsb' 5 5)).map .br
  else none

def decode (m : Memory) (a : Word) : Option (Instr × Nat) :=
  (decodeWord (load32 m a)).map fun i => (i, 4)

def exec (linked : Linked) (i : Instr) (next : Word) (s : Cpu) : Cpu :=
  match i with
  | .ldrLiteral t off =>
      { s with gpr := update s.gpr t (load64 s.mem (s.pc + off.signExtend 64)), pc := next }
  | .br n => { s with pc := s.gpr n }
  | .adrpGottprel d =>
      { s with gpr := update s.gpr d (linked.gotEntry &&& ~~~0xFFF), pc := next }
  | .ldrGottprelLo12 t n =>
      { s with
        gpr := update s.gpr t (load64 s.mem (s.gpr n + (linked.gotEntry &&& 0xFFF)))
        pc := next }
  | .mrsTpidr t => { s with gpr := update s.gpr t linked.tp, pc := next }
  | .strRegister t n m =>
      { s with mem := store64 s.mem (s.gpr n + s.gpr m) (s.gpr t), pc := next }

def Instr.jumps : Instr → Bool
  | .br _ => true
  | .ldrLiteral _ _ | .adrpGottprel _ | .ldrGottprelLo12 _ _ | .mrsTpidr _
  | .strRegister _ _ _ => false

def isa (linked : Linked) : Isa Instr Reg DReg where
  decode := decode
  exec := exec linked
  jumps := Instr.jumps

/-- `lore_tramp_shim`. -/
def shimText : List (Instr × Nat) :=
  [(.adrpGottprel (.x 9), 4), (.ldrGottprelLo12 (.x 9) (.x 9), 4), (.mrsTpidr (.x 8), 4),
    (.strRegister (.x 16) (.x 8) (.x 9), 4), (.br (.x 17), 4)]

/-! ## The generated code -/

/-- The loads of a stub. -/
def thunkLoads : List (Instr × Nat) :=
  [(.ldrLiteral (.x 16) (-8), 4), (.ldrLiteral (.x 17) 12, 4), (.ldrLiteral (.x 9) 16, 4)]

variable {m : Memory} {a : Word}

theorem decode_of_word {w : BitVec 32} {i : Instr} (h : BytesAt m a (word32Bytes w))
    (hw : decodeWord w = some i) : decode m a = some (i, 4) := by
  rw [decode, h.load32, hw]
  rfl

theorem bytesAt_thunk {shim t target : Word} (h : Installed (codegen shim) m t target) :
    BytesAt m (thunkInstr t) (thunkBytes shim target) := by
  obtain ⟨m₀, hm₀⟩ := h
  have hbytes : BytesAt (trampGenThunk shim m₀ (thunkInstr t) target) (thunkInstr t)
      (thunkBytes shim target) := by
    rw [trampGenThunk, BitVec.add_zero]
    exact bytesAt_storeBytes (Nat.le_of_ble_eq_true rfl)
  refine hbytes.congr (Nat.le_of_ble_eq_true rfl) fun x hx => hm₀ x ?_
  exact Nat.lt_of_lt_of_le hx (Nat.le_of_ble_eq_true rfl)

/-- The bytes of a stub are its code and its two literals. -/
theorem placed_thunk (linked : Linked) {shim t target : Word}
    (h : Installed (codegen shim) m t target) :
    Placed (isa linked) m (thunkInstr t) (thunkLoads ++ [(.br (.x 9), 4)]) ∧
      load64 m (thunkInstr t + BitVec.ofNat 64 16) = target ∧
      load64 m (thunkInstr t + BitVec.ofNat 64 24) = shim := by
  have hbytes : BytesAt m (thunkInstr t) ((word32Bytes 0x58FFFFD0 ++ (word32Bytes 0x58000071 ++
      (word32Bytes 0x58000089 ++ word32Bytes 0xD61F0120))) ++ (wordBytes target ++
        wordBytes shim)) := bytesAt_thunk h
  rw [bytesAt_append] at hbytes
  obtain ⟨hcode, hliterals⟩ := hbytes
  simp only [bytesAt_append] at hcode
  obtain ⟨hldr, hldr', hldr'', hbr⟩ := hcode
  rw [bytesAt_append, BitVec.add_assoc] at hliterals
  refine ⟨⟨decode_of_word hldr ?_, decode_of_word hldr' ?_, decode_of_word hldr'' ?_,
    decode_of_word hbr ?_, trivial⟩, hliterals.1.load64, hliterals.2.load64⟩
  all_goals rfl

theorem reads_thunkLoads (linked : Linked) : ∀ i ∈ thunkLoads, Reads (isa linked) i.1 := by
  simp only [thunkLoads, List.forall_mem_cons]
  exact ⟨⟨rfl, fun _ _ => ⟨rfl, rfl⟩⟩, ⟨rfl, fun _ _ => ⟨rfl, rfl⟩⟩,
    ⟨rfl, fun _ _ => ⟨rfl, rfl⟩⟩, List.forall_mem_nil _⟩

/-- The addresses of `saved_function` and of the two literals, as a stub computes them. -/
theorem saved_address (t : Word) : thunkInstr t + (-8 : BitVec 21).signExtend 64 = t := by
  rw [thunkInstr, BitVec.add_assoc]
  exact BitVec.add_zero t

/-- A page and the offset in it make up an address. -/
theorem and_not_add_and (x k : Word) : (x &&& ~~~k) + (x &&& k) = x := by
  have hand : (x &&& ~~~k) &&& (x &&& k) = 0 := by
    ext i hi
    simp
    grind
  rw [BitVec.add_eq_or_of_and_eq_zero _ _ hand]
  ext i hi
  simp
  grind

/-- The registers when the handler is entered. -/
def handlerRegs (linked : Linked) (s : Cpu) (saved target : Word) : Reg → Word :=
  update (update (update (update s.gpr (.x 16) saved) (.x 17) target) (.x 9) linked.tpOffset)
    (.x 8) linked.tp

theorem callStub_thunk {linked : Linked} {s : Cpu} {t target : Word} (hpc : s.pc = thunkInstr t)
    (h : Installed (codegen linked.shim) s.mem t target) (hgot : linked.Loaded s.mem) :
    callStub (isa linked) shimText linked.shim s =
      some ⟨handlerRegs linked s (savedFunction s.mem t) target, s.fpr, target,
        store64 s.mem linked.cell (savedFunction s.mem t)⟩ := by
  obtain ⟨hplaced, htarget, hshim⟩ := placed_thunk linked h
  have hgot' : load64 s.mem ((linked.gotEntry &&& 0xFFFFFFFFFFFFF000#64) +
      (linked.gotEntry &&& 0xFFF#64)) = linked.tpOffset :=
    (congrArg (load64 s.mem) (and_not_add_and linked.gotEntry 0xFFF)).trans hgot
  have hsaved : load64 s.mem (s.pc + (-8 : BitVec 21).signExtend 64) = savedFunction s.mem t := by
    rw [hpc, saved_address, savedFunction]
  have htarget' : load64 s.mem (s.pc + 4 + (12 : BitVec 21).signExtend 64) = target := by
    rw [hpc, BitVec.add_assoc]
    exact htarget
  have hshim' : load64 s.mem (s.pc + 4 + 4 + (16 : BitVec 21).signExtend 64) = linked.shim := by
    rw [hpc, BitVec.add_assoc, BitVec.add_assoc]
    exact hshim
  have hstub : runText (isa linked) (thunkLoads ++ [(.br (.x 9), 4)]) s =
      { s with
        gpr := update (update (update s.gpr (.x 16) (savedFunction s.mem t)) (.x 17) target) (.x 9)
          linked.shim
        pc := linked.shim } := by
    rw [← hsaved]
    conv_rhs => rw [← htarget', ← hshim']
    rfl
  rw [← hpc] at hplaced
  rw [callStub_eq (reads_thunkLoads linked) rfl (Nat.le_of_ble_eq_true rfl) hplaced (by rw [hstub]),
    hstub]
  simp [runText, shimText, isa, exec, handlerRegs, Linked.cell, hgot']

/-- AAPCS64: eight integer and eight vector registers, and the address of a result in
memory in `x8`. -/
def platform : Platform Reg DReg where
  Instr := Instr
  isa := isa
  codegen linked := codegen linked.shim
  shimText := shimText
  sp := .sp
  argRegs := [.x 0, .x 1, .x 2, .x 3, .x 4, .x 5, .x 6, .x 7]
  floatArgRegs := [0, 1, 2, 3, 4, 5, 6, 7]
  hidden sig := if sig.IndirectResult then [.reg (.x 8)] else []
  Threaded _ _ := True
  scratch := [.x 16, .x 17, .x 9, .x 8]
  sp_notMem := by decide
  argRegs_notMem := by decide
  arrives := by
    rintro linked s t target hpc h hgot -
    refine ⟨_, callStub_thunk hpc h hgot, fun r hr => ?_⟩
    simp only [List.mem_cons, List.not_mem_nil, or_false, not_or] at hr
    rw [handlerRegs, update_of_ne hr.2.2.2, update_of_ne hr.2.2.1, update_of_ne hr.2.1,
      update_of_ne hr.1]

end Lorelei.Trampoline.AArch64
