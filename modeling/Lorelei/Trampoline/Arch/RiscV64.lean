import Lorelei.Trampoline.Platform
import Mathlib.Logic.Function.Basic

/-!
# Stubs on riscv64

The code that `tramp_gen_thunk` generates, decoded from its bytes, and the shim of
`Trampoline_shim_riscv64.S`.  Both use temporaries only, none of which carries an
argument.
-/

namespace Lorelei.Trampoline.RiscV64

open ByteMemory Machine Function Lorelei.RiscV64

abbrev Cpu := Machine.Cpu Reg FReg

/-- The instructions of the stubs and the shim; `none` is the register `zero`. -/
inductive Instr where
  /-- `auipc rd, imm` -/
  | auipc (rd : Option Reg) (imm : BitVec 20)
  /-- `ld rd, imm(rs1)` -/
  | ld (rd : Option Reg) (imm : BitVec 12) (rs1 : Option Reg)
  /-- `jalr rd, imm(rs1)` -/
  | jalr (rd : Option Reg) (imm : BitVec 12) (rs1 : Option Reg)
  /-- `la.tls.ie rd, thread_last_callback` -/
  | laTlsIe (rd : Reg)
  /-- `add rd, rs1, rs2` -/
  | add (rd rs1 rs2 : Reg)
  /-- `sd rs2, imm(rs1)` -/
  | sd (rs2 : Reg) (imm : BitVec 12) (rs1 : Reg)
deriving DecidableEq, Repr

/-- The registers in the order of their numbers. -/
def registers : List (Option Reg) :=
  [none, some .ra, some .sp, some .gp, some .tp, some .t0, some .t1, some .t2, some .s0, some .s1,
    some .a0, some .a1, some .a2, some .a3, some .a4, some .a5, some .a6, some .a7, some .s2,
    some .s3, some .s4, some .s5, some .s6, some .s7, some .s8, some .s9, some .s10, some .s11,
    some .t3, some .t4, some .t5, some .t6]

def register (n : BitVec 5) : Option Reg := registers.getD n.toNat none

def decodeWord (w : BitVec 32) : Option Instr :=
  let rd := register (w.extractLsb' 7 5)
  let rs1 := register (w.extractLsb' 15 5)
  let funct3 := w.extractLsb' 12 3
  let imm := w.extractLsb' 20 12
  if w.extractLsb' 0 7 = 0x17 then some (.auipc rd (w.extractLsb' 12 20))
  else if w.extractLsb' 0 7 = 0x03 ∧ funct3 = 3 then some (.ld rd imm rs1)
  else if w.extractLsb' 0 7 = 0x67 ∧ funct3 = 0 then some (.jalr rd imm rs1)
  else none

def decode (m : Memory) (a : Word) : Option (Instr × Nat) :=
  (decodeWord (load32 m a)).map fun i => (i, 4)

def readReg (gpr : Reg → Word) : Option Reg → Word
  | none => 0
  | some r => gpr r

def writeReg (gpr : Reg → Word) (v : Word) : Option Reg → Reg → Word
  | none => gpr
  | some r => update gpr r v

/-- Code addresses are even, so that the lowest bit, which a jump clears, is never set. -/
def exec (linked : Linked) (i : Instr) (next : Word) (s : Cpu) : Cpu :=
  match i with
  | .auipc rd imm =>
      { s with gpr := writeReg s.gpr (s.pc + (imm ++ 0#12).signExtend 64) rd, pc := next }
  | .ld rd imm rs1 =>
      { s with
        gpr := writeReg s.gpr (load64 s.mem (readReg s.gpr rs1 + imm.signExtend 64)) rd
        pc := next }
  | .jalr rd imm rs1 =>
      { s with gpr := writeReg s.gpr next rd, pc := readReg s.gpr rs1 + imm.signExtend 64 }
  | .laTlsIe rd => { s with gpr := update s.gpr rd (load64 s.mem linked.gotEntry), pc := next }
  | .add rd rs1 rs2 => { s with gpr := update s.gpr rd (s.gpr rs1 + s.gpr rs2), pc := next }
  | .sd rs2 imm rs1 =>
      { s with mem := store64 s.mem (s.gpr rs1 + imm.signExtend 64) (s.gpr rs2), pc := next }

def Instr.jumps : Instr → Bool
  | .jalr _ _ _ => true
  | .auipc _ _ | .ld _ _ _ | .laTlsIe _ | .add _ _ _ | .sd _ _ _ => false

def isa (linked : Linked) : Isa Instr Reg FReg where
  decode := decode
  exec := exec linked
  jumps := Instr.jumps

/-- `lore_tramp_shim`.  `la.tls.ie` stands for two instructions. -/
def shimText : List (Instr × Nat) :=
  [(.laTlsIe .t2, 8), (.add .t2 .t2 .tp, 4), (.sd .t0 0 .t2, 4), (.jalr none 0 (some .t1), 4)]

/-! ## The generated code -/

/-- The loads of a stub. -/
def thunkLoads : List (Instr × Nat) :=
  [(.auipc (some .t3) 0, 4), (.ld (some .t0) (-8) (some .t3), 4),
    (.ld (some .t1) 24 (some .t3), 4), (.ld (some .t2) 32 (some .t3), 4)]

/-- Its jump to the shim. -/
def thunkJump : Instr := .jalr none 0 (some .t2)

variable {m : Memory} {a : Word}

theorem decode_of_word {w : BitVec 32} {i : Instr} (h : BytesAt m a (word32Bytes w))
    (hw : decodeWord w = some i) : decode m a = some (i, 4) := by
  rw [decode, h.load32, hw]
  rfl

/-- The code and the literals of a stub. -/
theorem bytesAt_thunk {shim t target : Word} (h : Installed (codegen shim) m t target) :
    BytesAt m (thunkInstr t) thunkBytes ∧
      BytesAt m (thunkInstr t + BitVec.ofNat 64 24) (wordBytes target ++ wordBytes shim) := by
  obtain ⟨m₀, hm₀⟩ := h
  have hcode : BytesAt (storeBytes m₀ (thunkInstr t) thunkBytes) (thunkInstr t) thunkBytes :=
    bytesAt_storeBytes (Nat.le_of_ble_eq_true rfl)
  have hliterals : BytesAt (trampGenThunk shim m₀ (thunkInstr t) target)
      (thunkInstr t + BitVec.ofNat 64 24) (wordBytes target ++ wordBytes shim) :=
    bytesAt_storeBytes (Nat.le_of_ble_eq_true rfl)
  have hapart : Disjoint (block (thunkInstr t + BitVec.ofNat 64 0) thunkBytes.length)
      (block (thunkInstr t + BitVec.ofNat 64 24) (wordBytes target ++ wordBytes shim).length) :=
    block_disjoint_of_offsets (Nat.le_of_ble_eq_true rfl) (Nat.le_of_ble_eq_true rfl)
  rw [BitVec.add_zero] at hapart
  constructor
  · refine hcode.congr (Nat.le_of_ble_eq_true rfl) fun x hx => ?_
    have hthunk : x ∈ block (thunkInstr t) thunkInstrSize :=
      Nat.lt_of_lt_of_le hx (Nat.le_of_ble_eq_true rfl)
    have hfirst : (codegen shim).trampGenThunk m₀ (thunkInstr t) target x =
        storeBytes m₀ (thunkInstr t + BitVec.ofNat 64 0) thunkBytes x :=
      storeBytes_of_notMem (Set.disjoint_left.mp hapart hx)
    rw [hm₀ x hthunk, hfirst, BitVec.add_zero]
  · refine hliterals.congr (Nat.le_of_ble_eq_true rfl) fun x hx => hm₀ x ?_
    exact block_subset (Nat.le_of_ble_eq_true rfl) (Nat.le_of_ble_eq_true rfl) hx

/-- The bytes of a stub are its code and its two literals. -/
theorem placed_thunk (linked : Linked) {shim t target : Word}
    (h : Installed (codegen shim) m t target) :
    Placed (isa linked) m (thunkInstr t) (thunkLoads ++ [(thunkJump, 4)]) ∧
      load64 m (thunkInstr t + BitVec.ofNat 64 24) = target ∧
      load64 m (thunkInstr t + BitVec.ofNat 64 32) = shim := by
  obtain ⟨hcode, hliterals⟩ := bytesAt_thunk h
  have hcode' : BytesAt m (thunkInstr t) (word32Bytes 0x00000E17 ++ (word32Bytes 0xFF8E3283 ++
      (word32Bytes 0x018E3303 ++ (word32Bytes 0x020E3383 ++ word32Bytes 0x00038067)))) := hcode
  simp only [bytesAt_append] at hcode'
  obtain ⟨hauipc, hld, hld', hld'', hjr⟩ := hcode'
  rw [bytesAt_append, BitVec.add_assoc] at hliterals
  refine ⟨⟨decode_of_word hauipc ?_, decode_of_word hld ?_, decode_of_word hld' ?_,
    decode_of_word hld'' ?_, decode_of_word hjr ?_, trivial⟩, hliterals.1.load64,
    hliterals.2.load64⟩
  all_goals rfl

theorem reads_thunkLoads (linked : Linked) : ∀ i ∈ thunkLoads, Reads (isa linked) i.1 := by
  simp only [thunkLoads, List.forall_mem_cons]
  exact ⟨⟨rfl, fun _ _ => ⟨rfl, rfl⟩⟩, ⟨rfl, fun _ _ => ⟨rfl, rfl⟩⟩,
    ⟨rfl, fun _ _ => ⟨rfl, rfl⟩⟩, ⟨rfl, fun _ _ => ⟨rfl, rfl⟩⟩, List.forall_mem_nil _⟩

/-- The address of `saved_function`, as a stub computes it. -/
theorem saved_address (t : Word) : thunkInstr t + (-8 : BitVec 12).signExtend 64 = t := by
  rw [thunkInstr, BitVec.add_assoc]
  exact BitVec.add_zero t

/-- The registers when the handler is entered. -/
def handlerRegs (linked : Linked) (s : Cpu) (saved target : Word) : Reg → Word :=
  update (update (update (update s.gpr .t3 s.pc) .t0 saved) .t1 target) .t2 linked.cell

theorem callStub_thunk {linked : Linked} {s : Cpu} {t target : Word} (hpc : s.pc = thunkInstr t)
    (h : Installed (codegen linked.shim) s.mem t target) (hgot : linked.Loaded s.mem)
    (htp : s.gpr .tp = linked.tp) :
    callStub (isa linked) shimText linked.shim s =
      some ⟨handlerRegs linked s (savedFunction s.mem t) target, s.fpr, target,
        store64 s.mem linked.cell (savedFunction s.mem t)⟩ := by
  obtain ⟨hplaced, htarget, hshim⟩ := placed_thunk linked h
  have hgot' : load64 s.mem linked.gotEntry = linked.tpOffset := hgot
  have hsaved : load64 s.mem (s.pc + (-8 : BitVec 12).signExtend 64) = savedFunction s.mem t := by
    rw [hpc, saved_address, savedFunction]
  rw [← hpc] at hplaced htarget hshim
  have hstub : runText (isa linked) (thunkLoads ++ [(thunkJump, 4)]) s =
      { s with
        gpr := update (update (update (update s.gpr .t3 s.pc) .t0 (savedFunction s.mem t)) .t1
          target) .t2 linked.shim
        pc := linked.shim } := by
    rw [← hsaved]
    simp [runText, thunkLoads, thunkJump, isa, exec, writeReg, readReg, htarget, hshim]
  rw [callStub_eq (reads_thunkLoads linked) rfl (Nat.le_of_ble_eq_true rfl) hplaced (by rw [hstub]),
    hstub]
  simp [runText, shimText, isa, exec, handlerRegs, Linked.cell, hgot', htp, readReg, writeReg,
    BitVec.add_comm]

/-- The LP64D ABI: eight integer and eight floating-point registers.  The address of a
result in memory is the first integer argument. -/
def platform : Platform Reg FReg where
  Instr := Instr
  isa := isa
  codegen linked := codegen linked.shim
  shimText := shimText
  sp := .sp
  argRegs := [.a0, .a1, .a2, .a3, .a4, .a5, .a6, .a7]
  floatArgRegs := [10, 11, 12, 13, 14, 15, 16, 17]
  hidden _ := []
  Threaded linked gpr := gpr .tp = linked.tp
  scratch := [.t3, .t0, .t1, .t2]
  sp_notMem := by decide
  argRegs_notMem := by decide
  arrives := by
    intro linked s t target hpc h hgot htp
    refine ⟨_, callStub_thunk hpc h hgot htp, fun r hr => ?_⟩
    simp only [List.mem_cons, List.not_mem_nil, or_false, not_or] at hr
    rw [handlerRegs, update_of_ne hr.2.2.2, update_of_ne hr.2.2.1, update_of_ne hr.2.1,
      update_of_ne hr.1]

end Lorelei.Trampoline.RiscV64
