import Lorelei.Lib.Memory

/-!
# The code generators of the trampoline stubs

`tramp_gen_thunk` on the three host architectures: the bytes it puts into the
`thunk_instr` field of a trampoline, for a handler `target` and the address of the
shared shim.  What the bytes do when they run is the business of `Trampoline.Arch`;
here the only law is that a generator stays within its field.
-/

namespace Lorelei.Trampoline

open ByteMemory

/-- `sizeof(FunctionTrampoline::thunk_instr)`. -/
def thunkInstrSize : Nat := 40

/-- A `tramp_gen_thunk`: it writes the stub of a handler into `thunk_instr` and changes
nothing else. -/
structure Codegen where
  trampGenThunk : Memory → (buf target : Word) → Memory
  within : ∀ {m : Memory} {buf target x : Word}, x ∉ block buf thunkInstrSize →
    trampGenThunk m buf target x = m x

/-- Bytes put at an offset of `thunk_instr` that fit there change nothing else. -/
theorem storeBytes_within {m : Memory} {buf x : Word} {off : Nat} {bs : List (BitVec 8)}
    (hfit : off + bs.length ≤ thunkInstrSize) (hx : x ∉ block buf thunkInstrSize) :
    storeBytes m (buf + BitVec.ofNat 64 off) bs x = m x :=
  storeBytes_of_notMem fun hmem => hx (block_subset hfit (by decide) hmem)

namespace X8664

/-- ```
mov  -15(%rip), %r11
movabs target, %r10
movabs shim,   %rax
jmp  *%rax
``` -/
def thunkBytes (shim target : Word) : List (BitVec 8) :=
  [0x4C, 0x8B, 0x1D] ++ word32Bytes (-15) ++
  [0x49, 0xBA] ++ wordBytes target ++
  [0x48, 0xB8] ++ wordBytes shim ++
  [0xFF, 0xE0]

def trampGenThunk (shim : Word) (m : Memory) (buf target : Word) : Memory :=
  storeBytes m (buf + BitVec.ofNat 64 0) (thunkBytes shim target)

def codegen (shim : Word) : Codegen where
  trampGenThunk := trampGenThunk shim
  within := storeBytes_within (Nat.le_of_ble_eq_true rfl)

end X8664

namespace AArch64

/-- ```
ldr x16, #-8
ldr x17, #12
ldr x9,  #16
br  x9
<handler>
<shim>
``` -/
def thunkBytes (shim target : Word) : List (BitVec 8) :=
  word32Bytes 0x58FFFFD0 ++
  word32Bytes 0x58000071 ++
  word32Bytes 0x58000089 ++
  word32Bytes 0xD61F0120 ++
  wordBytes target ++
  wordBytes shim

def trampGenThunk (shim : Word) (m : Memory) (buf target : Word) : Memory :=
  storeBytes m (buf + BitVec.ofNat 64 0) (thunkBytes shim target)

def codegen (shim : Word) : Codegen where
  trampGenThunk := trampGenThunk shim
  within := storeBytes_within (Nat.le_of_ble_eq_true rfl)

end AArch64

namespace RiscV64

/-- ```
auipc t3, 0
ld t0, -8(t3)
ld t1, 24(t3)
ld t2, 32(t3)
jr t2
``` -/
def thunkBytes : List (BitVec 8) :=
  word32Bytes 0x00000E17 ++
  word32Bytes 0xFF8E3283 ++
  word32Bytes 0x018E3303 ++
  word32Bytes 0x020E3383 ++
  word32Bytes 0x00038067

/-- The literals start at offset 24: the four bytes after the code are not written. -/
def trampGenThunk (shim : Word) (m : Memory) (buf target : Word) : Memory :=
  storeBytes (storeBytes m (buf + BitVec.ofNat 64 0) thunkBytes) (buf + BitVec.ofNat 64 24)
    (wordBytes target ++ wordBytes shim)

def codegen (shim : Word) : Codegen where
  trampGenThunk := trampGenThunk shim
  within := by
    intro m buf target x hx
    rw [trampGenThunk, storeBytes_within (Nat.le_of_ble_eq_true rfl) hx]
    exact storeBytes_within (Nat.le_of_ble_eq_true rfl) hx

end RiscV64

end Lorelei.Trampoline
