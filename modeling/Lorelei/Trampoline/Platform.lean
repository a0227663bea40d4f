import Lorelei.Lib.Machine
import Lorelei.Registers
import Lorelei.Trampoline.Table

/-!
# Calls through a stub

A call of a stub runs the code in its `thunk_instr`, decoded from the bytes that
`tramp_gen_thunk` put there, and then the shared shim, up to the first instruction of
the handler (`Platform.call`).  A `Platform` is what an architecture contributes: its
instructions, its code generator and shim, the places in which its C ABI passes
arguments, and the law that a call arrives at the handler with the callback in
`thread_last_callback` and only scratch registers changed.
-/

namespace Lorelei.Trampoline

open ByteMemory Machine

/-! ## What the ABI passes where -/

/-- The result type of a callback, as far as an ABI tells results apart. -/
inductive ResultType where
  | void
  | scalar
  /-- A structure or union; `homogeneous` if it consists of at most four floating-point
  or vector members of one type. -/
  | aggregate (size : Nat) (homogeneous : Bool)
deriving DecidableEq, Repr

/-- What of a callback signature decides about hidden arguments. -/
structure Signature where
  result : ResultType
  variadic : Bool
deriving DecidableEq, Repr

/-- The caller passes the address of the result, for AAPCS64. -/
def Signature.IndirectResult (sig : Signature) : Prop :=
  match sig.result with
  | .void | .scalar => False
  | .aggregate size homogeneous => 16 < size ∧ homogeneous = false

instance (sig : Signature) : Decidable sig.IndirectResult := by
  unfold Signature.IndirectResult
  split <;> infer_instance

/-- A place that carries an argument, or a byte of one. -/
inductive Place (Reg FReg : Type) where
  | reg (r : Reg)
  | lowByte (r : Reg)
  | float (f : FReg)
  /-- The byte at this offset from the stack pointer. -/
  | stack (off : Nat)

def Place.read {Reg FReg : Type} (sp : Reg) (s : Cpu Reg FReg) : Place Reg FReg → Word
  | .reg r => s.gpr r
  | .lowByte r => ((s.gpr r).setWidth 8).setWidth 64
  | .float f => s.fpr f
  | .stack off => (s.mem (s.gpr sp + BitVec.ofNat 64 off)).setWidth 64

/-! ## Stubs in memory -/

/-- What the linker and the loader have settled for a thread.  The entry of the global
offset table for `thread_last_callback` holds its offset from the thread pointer. -/
structure Linked where
  shim : Word
  tp : Word
  gotEntry : Word
  tpOffset : Word

/-- `&thread_last_callback`. -/
def Linked.cell (linked : Linked) : Word := linked.tp + linked.tpOffset

/-- The loader has filled the entry of the global offset table. -/
def Linked.Loaded (linked : Linked) (m : Memory) : Prop :=
  load64 m linked.gotEntry = linked.tpOffset

/-- `thunk_instr` is as `tramp_gen_thunk` left it. -/
def Installed (codegen : Codegen) (m : Memory) (t target : Word) : Prop :=
  ∃ m₀, ∀ x ∈ block (thunkInstr t) thunkInstrSize,
    m x = codegen.trampGenThunk m₀ (thunkInstr t) target x

variable {codegen : Codegen} {m m' : Memory} {t target : Word}

theorem Installed.congr (hm : ∀ x ∈ block (thunkInstr t) thunkInstrSize, m' x = m x)
    (h : Installed codegen m t target) : Installed codegen m' t target := by
  obtain ⟨m₀, hm₀⟩ := h
  exact ⟨m₀, fun x hx => (hm x hx).trans (hm₀ x hx)⟩

theorem installed_initTrampoline {magic_sign : Word} :
    Installed codegen (initTrampoline codegen target magic_sign t m) t target :=
  ⟨_, fun _ _ => rfl⟩

theorem block_thunk_subset (t : Word) :
    block (thunkInstr t) thunkInstrSize ⊆ block t trampolineSize :=
  block_subset (by decide) (by decide)

/-- The stubs of a new table lead to its target. -/
theorem installed_create {table magic_sign : Word} {size count i : Nat}
    (hfit : tableSize count ≤ 2 ^ 64) (hi : i < count) :
    Installed codegen (create codegen m table size count target magic_sign)
      (trampolineAt table i) target := by
  obtain ⟨m₀, hm₀⟩ := initAll_trampoline hfit hi
  exact Installed.congr (fun x hx => hm₀ x (block_thunk_subset _ hx)) installed_initTrampoline

/-! ## Platforms -/

section CallStub

variable {Instr Reg FReg : Type}

/-- Run the code at `s.pc` up to its jump to the shim, and the shim. -/
def callStub (isa : Isa Instr Reg FReg) (shimText : List (Instr × Nat)) (shim : Word)
    (s : Cpu Reg FReg) : Option (Cpu Reg FReg) :=
  match runBlock isa thunkInstrSize s with
  | none => none
  | some s => if s.pc = shim then some (runText isa shimText s) else none

/-- A stub is a block of loads that jumps to the shim. -/
theorem callStub_eq {isa : Isa Instr Reg FReg} {shimText text : List (Instr × Nat)}
    {jump : Instr} {size : Nat} {shim : Word} {s : Cpu Reg FReg}
    (hreads : ∀ i ∈ text, Reads isa i.1) (hjump : isa.jumps jump = true)
    (hfuel : text.length < thunkInstrSize)
    (h : Placed isa s.mem s.pc (text ++ [(jump, size)]))
    (hshim : (runText isa (text ++ [(jump, size)]) s).pc = shim) :
    callStub isa shimText shim s =
      some (runText isa shimText (runText isa (text ++ [(jump, size)]) s)) := by
  rw [callStub, runBlock_of_placed isa hreads hjump hfuel h]
  exact if_pos hshim

end CallStub

/-- What an architecture contributes. -/
structure Platform (Reg FReg : Type) where
  Instr : Type
  isa : Linked → Isa Instr Reg FReg
  codegen : Linked → Codegen
  /-- `lore_tramp_shim`. -/
  shimText : List (Instr × Nat)
  sp : Reg
  argRegs : List Reg
  floatArgRegs : List FReg
  /-- The hidden arguments of a call that are not in an argument register. -/
  hidden : Signature → List (Place Reg FReg)
  /-- The registers hold what the platform keeps in them on every thread. -/
  Threaded : Linked → (Reg → Word) → Prop
  /-- The registers a stub and the shim change. -/
  scratch : List Reg
  sp_notMem : sp ∉ scratch
  argRegs_notMem : ∀ r ∈ argRegs, r ∉ scratch
  /-- A call arrives at the handler. -/
  arrives : ∀ {linked : Linked} {s : Cpu Reg FReg} {t target : Word},
    s.pc = thunkInstr t → Installed (codegen linked) s.mem t target → linked.Loaded s.mem →
    Threaded linked s.gpr →
    ∃ gpr', callStub (isa linked) shimText linked.shim s =
        some ⟨gpr', s.fpr, target, store64 s.mem linked.cell (savedFunction s.mem t)⟩ ∧
      ∀ r, r ∉ scratch → gpr' r = s.gpr r

/-- The places in which a call may pass its arguments, with `n` bytes of them on the
stack. -/
def Platform.places {Reg FReg : Type} (P : Platform Reg FReg) (sig : Signature) (n : Nat) :
    Set (Place Reg FReg) :=
  {p | (∃ r ∈ P.argRegs, p = .reg r) ∨ (∃ f ∈ P.floatArgRegs, p = .float f) ∨
    (∃ off < n, p = .stack off) ∨ p ∈ P.hidden sig}

/-- Call the stub at `s.pc`, up to the first instruction of the handler. -/
def Platform.call {Reg FReg : Type} (P : Platform Reg FReg) (linked : Linked) (s : Cpu Reg FReg) :
    Option (Cpu Reg FReg) :=
  callStub (P.isa linked) P.shimText linked.shim s

end Lorelei.Trampoline
