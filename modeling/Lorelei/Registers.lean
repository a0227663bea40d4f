import Mathlib.Algebra.Ring.Nat

/-!
# The host architectures and their registers

The registers of x86_64, aarch64 and riscv64 that the assembly of the repository
names or must leave alone.
-/

namespace Lorelei

/-! Numbers of registers, which numerals for registers are taken modulo. -/

instance neZero_sixteen : NeZero 16 := ⟨by decide⟩

instance neZero_thirtyOne : NeZero 31 := ⟨by decide⟩

instance neZero_thirtyTwo : NeZero 32 := ⟨by decide⟩

/-- The supported host architectures. -/
inductive Architecture where
  | x86_64 | aarch64 | riscv64
deriving DecidableEq, Repr

namespace X8664

inductive Reg where
  | rax | rbx | rcx | rdx | rsi | rdi | rbp | rsp
  | r8 | r9 | r10 | r11 | r12 | r13 | r14 | r15
deriving DecidableEq, Repr

/-- The vector registers. -/
abbrev XmmReg := Fin 16

end X8664

namespace AArch64

inductive Reg where
  | x (n : Fin 31)
  | sp
deriving DecidableEq, Repr

/-- The registers `d0` to `d31`. -/
abbrev DReg := Fin 32

end AArch64

namespace RiscV64

/-- The integer registers but `zero`. -/
inductive Reg where
  | ra | sp | gp | tp
  | t0 | t1 | t2 | t3 | t4 | t5 | t6
  | s0 | s1 | s2 | s3 | s4 | s5 | s6 | s7 | s8 | s9 | s10 | s11
  | a0 | a1 | a2 | a3 | a4 | a5 | a6 | a7
deriving DecidableEq, Repr

/-- The registers `f0` to `f31`. -/
abbrev FReg := Fin 32

end RiscV64

namespace Architecture

def Reg : Architecture → Type
  | .x86_64 => X8664.Reg
  | .aarch64 => AArch64.Reg
  | .riscv64 => RiscV64.Reg

def FReg : Architecture → Type
  | .x86_64 => X8664.XmmReg
  | .aarch64 => AArch64.DReg
  | .riscv64 => RiscV64.FReg

end Architecture

end Lorelei
