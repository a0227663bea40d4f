import Lorelei.Trampoline.Platform
import Mathlib.Logic.Function.Basic

/-!
# Stubs on x86_64

The code that `tramp_gen_thunk` generates, decoded from its bytes, and the shim of
`Trampoline_shim_x86_64.S`.  Both use `%rax`, whose low byte carries the number of
vector registers in a call of a variadic function.
-/

namespace Lorelei.Trampoline.X8664

open ByteMemory Machine Function Lorelei.X8664

abbrev Cpu := Machine.Cpu Reg XmmReg

/-- The instructions of the stubs and the shim. -/
inductive Instr where
  /-- `mov disp(%rip), %dst` -/
  | loadRip (disp : BitVec 32) (dst : Reg)
  /-- `movabs imm, %dst` -/
  | movabs (imm : Word) (dst : Reg)
  /-- `jmp *%target` -/
  | jmp (target : Reg)
  /-- `mov thread_last_callback@gottpoff(%rip), %dst` -/
  | loadGottpoff (dst : Reg)
  /-- `mov %src, %fs:(%base)` -/
  | storeFs (src base : Reg)
deriving DecidableEq, Repr

/-- The registers in the order of their numbers. -/
def registers : List Reg :=
  [.rax, .rcx, .rdx, .rbx, .rsp, .rbp, .rsi, .rdi, .r8, .r9, .r10, .r11, .r12, .r13, .r14, .r15]

def register (n : BitVec 4) : Reg := registers.getD n.toNat .rax

/-- Instructions on 64-bit operands start with `REX.W`; `mov` from memory is known with
a `%rip`-relative operand only. -/
def decode (m : Memory) (a : Word) : Option (Instr × Nat) :=
  let b₀ := m a
  let b₁ := m (a + 1)
  let b₂ := m (a + 2)
  if b₀ &&& 0xF8 = 0x48 then
    if b₁ = 0x8B ∧ b₂ &&& 0xC7 = 0x05 then
      some (.loadRip (load32 m (a + 3)) (register (b₀.extractLsb' 2 1 ++ b₂.extractLsb' 3 3)), 7)
    else if b₁ &&& 0xF8 = 0xB8 then
      some (.movabs (load64 m (a + 2)) (register (b₀.extractLsb' 0 1 ++ b₁.extractLsb' 0 3)), 10)
    else none
  else if b₀ = 0xFF ∧ b₁ &&& 0xF8 = 0xE0 then
    some (.jmp (register (0#1 ++ b₁.extractLsb' 0 3)), 2)
  else none

def exec (linked : Linked) (i : Instr) (next : Word) (s : Cpu) : Cpu :=
  match i with
  | .loadRip disp dst =>
      { s with gpr := update s.gpr dst (load64 s.mem (next + disp.signExtend 64)), pc := next }
  | .movabs imm dst => { s with gpr := update s.gpr dst imm, pc := next }
  | .jmp target => { s with pc := s.gpr target }
  | .loadGottpoff dst =>
      { s with gpr := update s.gpr dst (load64 s.mem linked.gotEntry), pc := next }
  | .storeFs src base =>
      { s with mem := store64 s.mem (linked.tp + s.gpr base) (s.gpr src), pc := next }

def Instr.jumps : Instr → Bool
  | .jmp _ => true
  | .loadRip _ _ | .movabs _ _ | .loadGottpoff _ | .storeFs _ _ => false

def isa (linked : Linked) : Isa Instr Reg XmmReg where
  decode := decode
  exec := exec linked
  jumps := Instr.jumps

/-- `lore_tramp_shim`. -/
def shimText : List (Instr × Nat) :=
  [(.loadGottpoff .rax, 7), (.storeFs .r11 .rax, 4), (.jmp .r10, 3)]

/-! ## The generated code -/

/-- The loads of a stub. -/
def thunkLoads (shim target : Word) : List (Instr × Nat) :=
  [(.loadRip (-15) .r11, 7), (.movabs target .r10, 10), (.movabs shim .rax, 10)]

variable {m : Memory} {a v : Word}

theorem decode_loadRip {disp : BitVec 32} (h : BytesAt m a [0x4C, 0x8B, 0x1D])
    (hdisp : BytesAt m (a + 3) (word32Bytes disp)) :
    decode m a = some (.loadRip disp .r11, 7) := by
  have h₀ : m a = 0x4C := by simpa using h.byte (i := 0) rfl
  have h₁ : m (a + 1) = 0x8B := h.byte rfl
  have h₂ : m (a + 2) = 0x1D := h.byte rfl
  simp only [decode, h₀, h₁, h₂, hdisp.load32]
  rfl

theorem decode_movabs {b₀ b₁ : BitVec 8} {r : Reg} (h : BytesAt m a [b₀, b₁])
    (hv : BytesAt m (a + 2) (wordBytes v)) (hrex : b₀ &&& 0xF8 = 0x48)
    (hop : b₁ ≠ 0x8B ∧ b₁ &&& 0xF8 = 0xB8)
    (hr : register (b₀.extractLsb' 0 1 ++ b₁.extractLsb' 0 3) = r) :
    decode m a = some (.movabs v r, 10) := by
  have h₀ : m a = b₀ := by simpa using h.byte (i := 0) rfl
  have h₁ : m (a + 1) = b₁ := h.byte rfl
  simp only [decode, h₀, h₁, hv.load64, hr, if_pos hrex, if_pos hop.2]
  exact if_neg fun hmov => hop.1 hmov.1

theorem decode_jmp (h : BytesAt m a [0xFF, 0xE0]) : decode m a = some (.jmp .rax, 2) := by
  have h₀ : m a = 0xFF := by simpa using h.byte (i := 0) rfl
  have h₁ : m (a + 1) = 0xE0 := h.byte rfl
  simp only [decode, h₀, h₁]
  rfl

theorem bytesAt_thunk {shim t target : Word} (h : Installed (codegen shim) m t target) :
    BytesAt m (thunkInstr t) (thunkBytes shim target) := by
  obtain ⟨m₀, hm₀⟩ := h
  have hbytes : BytesAt (trampGenThunk shim m₀ (thunkInstr t) target) (thunkInstr t)
      (thunkBytes shim target) := by
    rw [trampGenThunk, BitVec.add_zero]
    exact bytesAt_storeBytes (Nat.le_of_ble_eq_true rfl)
  refine hbytes.congr (Nat.le_of_ble_eq_true rfl) fun x hx => hm₀ x ?_
  exact Nat.lt_of_lt_of_le hx (Nat.le_of_ble_eq_true rfl)

/-- The bytes of a stub are its code. -/
theorem placed_thunk (linked : Linked) {shim t target : Word}
    (h : Installed (codegen shim) m t target) :
    Placed (isa linked) m (thunkInstr t) (thunkLoads shim target ++ [(.jmp .rax, 2)]) := by
  have hbytes : BytesAt m (thunkInstr t) (([0x4C, 0x8B, 0x1D] ++ word32Bytes (-15)) ++
      (([0x49, 0xBA] ++ wordBytes target) ++ (([0x48, 0xB8] ++ wordBytes shim) ++
        [0xFF, 0xE0]))) := bytesAt_thunk h
  simp only [bytesAt_append] at hbytes
  obtain ⟨⟨hload, hdisp⟩, ⟨hmov, htarget⟩, ⟨hmov', hshim⟩, hjmp⟩ := hbytes
  exact ⟨decode_loadRip hload hdisp, decode_movabs hmov htarget rfl ⟨by decide, rfl⟩ rfl,
    decode_movabs hmov' hshim rfl ⟨by decide, rfl⟩ rfl, decode_jmp hjmp, trivial⟩

/-- The address of `saved_function`, as a stub computes it. -/
theorem saved_address (t : Word) :
    thunkInstr t + BitVec.ofNat 64 7 + (-15 : BitVec 32).signExtend 64 = t := by
  rw [thunkInstr, BitVec.add_assoc, BitVec.add_assoc]
  exact BitVec.add_zero t

theorem reads_thunkLoads (linked : Linked) (shim target : Word) :
    ∀ i ∈ thunkLoads shim target, Reads (isa linked) i.1 := by
  simp only [thunkLoads, List.forall_mem_cons]
  exact ⟨⟨rfl, fun _ _ => ⟨rfl, rfl⟩⟩, ⟨rfl, fun _ _ => ⟨rfl, rfl⟩⟩,
    ⟨rfl, fun _ _ => ⟨rfl, rfl⟩⟩, List.forall_mem_nil _⟩

/-- The registers when the handler is entered. -/
def handlerRegs (linked : Linked) (s : Cpu) (saved target : Word) : Reg → Word :=
  update (update (update s.gpr .r11 saved) .r10 target) .rax linked.tpOffset

theorem callStub_thunk {linked : Linked} {s : Cpu} {t target : Word} (hpc : s.pc = thunkInstr t)
    (h : Installed (codegen linked.shim) s.mem t target) (hgot : linked.Loaded s.mem) :
    callStub (isa linked) shimText linked.shim s =
      some ⟨handlerRegs linked s (savedFunction s.mem t) target, s.fpr, target,
        store64 s.mem linked.cell (savedFunction s.mem t)⟩ := by
  have hsaved : load64 s.mem (s.pc + BitVec.ofNat 64 7 + (-15 : BitVec 32).signExtend 64) =
      savedFunction s.mem t := by
    rw [hpc, saved_address, savedFunction]
  have hstub : runText (isa linked) (thunkLoads linked.shim target ++ [(.jmp .rax, 2)]) s =
      { s with
        gpr := update (update (update s.gpr .r11 (savedFunction s.mem t)) .r10 target) .rax
          linked.shim
        pc := linked.shim } := by
    rw [← hsaved]
    simp [runText, thunkLoads, isa, exec]
  have hplaced := placed_thunk linked h
  rw [← hpc] at hplaced
  have hgot' : load64 s.mem linked.gotEntry = linked.tpOffset := hgot
  rw [callStub_eq (reads_thunkLoads linked linked.shim target) rfl (Nat.le_of_ble_eq_true rfl)
    hplaced (by rw [hstub]), hstub]
  simp [runText, shimText, isa, exec, handlerRegs, Linked.cell, hgot']

/-- The System V ABI: the first six integer arguments, the vector registers, and the
number of the latter in `%al` for a variadic function. -/
def platform : Platform Reg XmmReg where
  Instr := Instr
  isa := isa
  codegen linked := codegen linked.shim
  shimText := shimText
  sp := .rsp
  argRegs := [.rdi, .rsi, .rdx, .rcx, .r8, .r9]
  floatArgRegs := [0, 1, 2, 3, 4, 5, 6, 7]
  hidden sig := if sig.variadic then [.lowByte .rax] else []
  Threaded _ _ := True
  scratch := [.r11, .r10, .rax]
  sp_notMem := by decide
  argRegs_notMem := by decide
  arrives := by
    rintro linked s t target hpc h hgot -
    refine ⟨_, callStub_thunk hpc h hgot, fun r hr => ?_⟩
    simp only [List.mem_cons, List.not_mem_nil, or_false, not_or] at hr
    rw [handlerRegs, update_of_ne hr.2.2, update_of_ne hr.2.1, update_of_ne hr.1]

end Lorelei.Trampoline.X8664
