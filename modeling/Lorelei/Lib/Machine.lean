import Lorelei.Lib.Memory

/-!
# Code in memory

A processor that decodes its instructions from the memory it runs on.  An instruction
set says which instruction is at an address and how long it is, and what executing it
does; code that has been placed at an address then runs as the list of its
instructions, as long as it does not write to memory before its last one
(`runBlock_of_placed`).
-/

namespace Machine

open ByteMemory

variable {Instr Reg FReg : Type}

/-- The processor and its memory. -/
structure Cpu (Reg FReg : Type) where
  gpr : Reg → Word
  fpr : FReg → Word
  pc : Word
  mem : Memory

/-- An instruction set. -/
structure Isa (Instr Reg FReg : Type) where
  /-- The instruction at an address, with its length. -/
  decode : Memory → Word → Option (Instr × Nat)
  /-- Execute an instruction; the address is the one after it. -/
  exec : Instr → Word → Cpu Reg FReg → Cpu Reg FReg
  /-- The instruction ends a block. -/
  jumps : Instr → Bool

variable (isa : Isa Instr Reg FReg)

/-- Run up to the first jump.  `none` is an instruction that is not known, or fuel that
has run out. -/
def runBlock : Nat → Cpu Reg FReg → Option (Cpu Reg FReg)
  | 0, _ => none
  | fuel + 1, s =>
      match isa.decode s.mem s.pc with
      | none => none
      | some (i, size) =>
          if isa.jumps i then some (isa.exec i (s.pc + BitVec.ofNat 64 size) s)
          else runBlock fuel (isa.exec i (s.pc + BitVec.ofNat 64 size) s)

/-- Run a listing: instructions with their lengths. -/
def runText : List (Instr × Nat) → Cpu Reg FReg → Cpu Reg FReg
  | [], s => s
  | (i, size) :: text, s => runText text (isa.exec i (s.pc + BitVec.ofNat 64 size) s)

/-- A listing is in memory from this address on. -/
def Placed (m : Memory) : Word → List (Instr × Nat) → Prop
  | _, [] => True
  | a, (i, size) :: text =>
      isa.decode m a = some (i, size) ∧ Placed m (a + BitVec.ofNat 64 size) text

/-- The instruction falls through to the next one and does not write to memory. -/
def Reads (i : Instr) : Prop :=
  isa.jumps i = false ∧ ∀ next s, (isa.exec i next s).mem = s.mem ∧ (isa.exec i next s).pc = next

/-- A placed block of reads that ends in a jump runs as its listing. -/
theorem runBlock_of_placed {text : List (Instr × Nat)} {jump : Instr} {size fuel : Nat}
    {s : Cpu Reg FReg} (hreads : ∀ i ∈ text, Reads isa i.1) (hjump : isa.jumps jump = true)
    (hfuel : text.length < fuel) (h : Placed isa s.mem s.pc (text ++ [(jump, size)])) :
    runBlock isa fuel s = some (runText isa (text ++ [(jump, size)]) s) := by
  induction text generalizing fuel s with
  | nil =>
      obtain ⟨fuel, rfl⟩ := Nat.exists_eq_succ_of_ne_zero (Nat.ne_of_gt hfuel)
      rw [runBlock, h.1]
      exact if_pos hjump
  | cons i text ih =>
      obtain ⟨fuel, rfl⟩ := Nat.exists_eq_succ_of_ne_zero (Nat.ne_zero_of_lt hfuel)
      obtain ⟨hplain, hexec⟩ := hreads i List.mem_cons_self
      obtain ⟨hmem, hpc⟩ := hexec (s.pc + BitVec.ofNat 64 i.2) s
      have htext : Placed isa (isa.exec i.1 (s.pc + BitVec.ofNat 64 i.2) s).mem
          (isa.exec i.1 (s.pc + BitVec.ofNat 64 i.2) s).pc (text ++ [(jump, size)]) := by
        rw [hmem, hpc]
        exact h.2
      have hrest := ih (fun j hj => hreads j (List.mem_cons_of_mem i hj))
        (Nat.lt_of_succ_lt_succ hfuel) htext
      rw [runBlock, h.1]
      simp only [hplain]
      exact hrest

end Machine
