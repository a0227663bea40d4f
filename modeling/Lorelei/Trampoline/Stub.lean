import Lorelei.Trampoline.Arch.AArch64
import Lorelei.Trampoline.Arch.RiscV64
import Lorelei.Trampoline.Arch.X8664
import Mathlib.Logic.Relation

/-!
# What a handler finds when it is entered through a stub

A call through a stub is transparent if the handler finds every argument where the
caller has put it.  The stubs and the shims change scratch registers only, so this is
a matter of the hidden arguments: on aarch64 the shim overwrites `x8`, the address of
a result in memory, and on x86_64 it overwrites `%al`, the number of vector registers
in a call of a variadic function (`stub_transparent_iff`).

Which callback a handler stands for it reads from `thread_last_callback` before it
does anything else.  `Step` is a thread that creates tables, calls stubs from anywhere
and returns from handlers, with arbitrary code in between; every handler that has not
returned has then read the `saved_function` of the stub it was entered through
(`Run.frames`).
-/

namespace Lorelei

open ByteMemory Machine Relation

def Architecture.platform : (arch : Architecture) → Trampoline.Platform arch.Reg arch.FReg
  | .x86_64 => Trampoline.X8664.platform
  | .aarch64 => Trampoline.AArch64.platform
  | .riscv64 => Trampoline.RiscV64.platform

namespace Trampoline

variable {Reg FReg : Type} {P : Platform Reg FReg} {linked : Linked} {m m' : Memory}
  {t target : Word} {sig : Signature}

/-! ## Arguments -/

/-- A call of the stub of `t`, with `n` bytes of arguments on the stack. -/
structure CallSite (P : Platform Reg FReg) (linked : Linked) (s : Cpu Reg FReg) (t target : Word)
    (n : Nat) : Prop where
  pc : s.pc = thunkInstr t
  installed : Installed (P.codegen linked) s.mem t target
  loaded : linked.Loaded s.mem
  threaded : P.Threaded linked s.gpr
  stack : Disjoint (block (s.gpr P.sp) n) (block linked.cell 8)

/-- Every call arrives at the handler with its arguments where they were. -/
def Transparent (P : Platform Reg FReg) (sig : Signature) : Prop :=
  ∀ (linked : Linked) (s : Cpu Reg FReg) (t target : Word) (n : Nat),
    CallSite P linked s t target n → ∃ s', P.call linked s = some s' ∧ s'.pc = target ∧
      ∀ p ∈ P.places sig n, p.read P.sp s' = p.read P.sp s

/-- Without a hidden argument outside the argument registers, calls are transparent. -/
theorem transparent_of_hidden (h : P.hidden sig = []) : Transparent P sig := by
  intro linked s t target n hcall
  obtain ⟨gpr', heq, hgpr⟩ := P.arrives hcall.pc hcall.installed hcall.loaded hcall.threaded
  refine ⟨_, heq, rfl, ?_⟩
  rintro p (⟨r, hr, rfl⟩ | ⟨f, -, rfl⟩ | ⟨off, hoff, rfl⟩ | hp)
  · exact hgpr r (P.argRegs_notMem r hr)
  · rfl
  · have hmem : s.gpr P.sp + BitVec.ofNat 64 off ∈ block (s.gpr P.sp) n := by
      apply add_mem_block
      rw [BitVec.toNat_ofNat]
      exact Nat.lt_of_le_of_lt (Nat.mod_le off _) hoff
    simp only [Place.read, hgpr P.sp P.sp_notMem]
    rw [store64_of_notMem (Set.disjoint_left.mp hcall.stack hmem)]
  · rw [h] at hp
    cases hp

/-! ## Calls that are not transparent -/

/-- A thread whose thread pointer is zero and whose `thread_last_callback` is at zero. -/
def zeroLinked : Linked := ⟨0, 0, 0, 0⟩

/-- A call of a stub at 4096 with these registers. -/
def stubCaller (P : Platform Reg FReg) (gpr : Reg → Word) : Cpu Reg FReg where
  gpr := gpr
  fpr _ := 0
  pc := thunkInstr 4096
  mem := initTrampoline (P.codegen zeroLinked) 0 kTrampolineMagic 4096 fun _ => 0

theorem callSite_stubCaller (P : Platform Reg FReg) (gpr : Reg → Word)
    (h : P.Threaded zeroLinked gpr) :
    CallSite P zeroLinked (stubCaller P gpr) 4096 0 0 where
  pc := rfl
  installed := installed_initTrampoline
  loaded := by
    have hdisj : Disjoint (block 0 8) (block 4096 trampolineSize) :=
      block_disjoint_of_le (by decide) (by decide)
    have hzero : load64 (stubCaller P gpr).mem 0 = load64 (fun _ => 0) 0 :=
      load64_congr fun x hx => initTrampoline_of_notMem (Set.disjoint_left.mp hdisj hx)
    exact hzero.trans rfl
  threaded := h
  stack := by
    rw [Set.disjoint_left]
    intro x hx
    exact absurd hx (Nat.not_lt_zero _)

/-- On aarch64 the thread pointer takes the place of the result's address. -/
theorem AArch64.not_transparent (h : sig.IndirectResult) : ¬ Transparent AArch64.platform sig := by
  intro htrans
  have hcall := callSite_stubCaller AArch64.platform (fun _ => 1) trivial
  obtain ⟨s', heq, -, hread⟩ := htrans _ _ _ _ _ hcall
  have hs' : AArch64.platform.call zeroLinked (stubCaller AArch64.platform fun _ => 1) = _ :=
    AArch64.callStub_thunk hcall.pc hcall.installed hcall.loaded
  rw [hs'] at heq
  obtain rfl := Option.some.inj heq
  have hx8 : Place.reg (Lorelei.AArch64.Reg.x 8) ∈ AArch64.platform.places sig 0 := by
    refine .inr (.inr (.inr ?_))
    simp [AArch64.platform, h]
  exact absurd (hread _ hx8) (by decide : (0 : Word) ≠ 1)

/-- On x86_64 the offset of `thread_last_callback` takes the place of the number of
vector registers. -/
theorem X8664.not_transparent (h : sig.variadic = true) : ¬ Transparent X8664.platform sig := by
  intro htrans
  have hcall := callSite_stubCaller X8664.platform (fun _ => 1) trivial
  obtain ⟨s', heq, -, hread⟩ := htrans _ _ _ _ _ hcall
  have hs' : X8664.platform.call zeroLinked (stubCaller X8664.platform fun _ => 1) = _ :=
    X8664.callStub_thunk hcall.pc hcall.installed hcall.loaded
  rw [hs'] at heq
  obtain rfl := Option.some.inj heq
  have hal : Place.lowByte Lorelei.X8664.Reg.rax ∈ X8664.platform.places sig 0 := by
    refine .inr (.inr (.inr ?_))
    simp [X8664.platform, h]
  exact absurd (hread _ hal) (by decide : (0 : Word) ≠ 1)

/-! ## Identities -/

/-- A handler that has not returned: the trampoline it was entered through, and what it
has read from `thread_last_callback`. -/
structure Frame where
  trampoline : Word
  callback : Word

structure Thread (Reg FReg : Type) where
  cpu : Cpu Reg FReg
  /-- The trampolines of all tables. -/
  trampolines : Set Word
  /-- The handlers that run, the innermost first. -/
  frames : List Frame

/-- Code that leaves the generated code and the global offset table alone, and does not
change a `saved_function` once it is set. -/
structure Keeps (linked : Linked) (trampolines : Set Word) (m m' : Memory) : Prop where
  got : ∀ x ∈ block linked.gotEntry 8, m' x = m x
  thunk : ∀ t ∈ trampolines, ∀ x ∈ block (thunkInstr t) thunkInstrSize, m' x = m x
  saved : ∀ t ∈ trampolines, savedFunction m t ≠ 0 → savedFunction m' t = savedFunction m t

/-- The trampolines of a table. -/
def tableTrampolines (table : Word) (count : Nat) : Set Word :=
  {t | ∃ i < count, t = trampolineAt table i}

inductive Step (P : Platform Reg FReg) (linked : Linked) :
    Thread Reg FReg → Thread Reg FReg → Prop where
  /-- Any code but the following. -/
  | code {s : Thread Reg FReg} {cpu : Cpu Reg FReg} :
      Keeps linked s.trampolines s.cpu.mem cpu.mem → P.Threaded linked cpu.gpr →
      Step P linked s { s with cpu := cpu }
  /-- A table is created in pages that nothing else is in. -/
  | create {s : Thread Reg FReg} {count : Nat} (mapping : Mapping count) (target : Word) :
      Disjoint (block linked.gotEntry 8) (block mapping.table mapping.size) →
      Disjoint (block linked.cell 8) (block mapping.table mapping.size) →
      (∀ t ∈ s.trampolines, Disjoint (block t trampolineSize) (block mapping.table mapping.size)) →
      Step P linked s
        { s with
          cpu := { s.cpu with
            mem := create (P.codegen linked) s.cpu.mem mapping.table mapping.size count target
              kTrampolineMagic }
          trampolines := s.trampolines ∪ tableTrampolines mapping.table count }
  /-- A stub is called, and its handler runs up to and with its first statement, which
  reads `thread_last_callback`. -/
  | call {s : Thread Reg FReg} {t : Word} {entered cpu : Cpu Reg FReg} : t ∈ s.trampolines →
      s.cpu.pc = thunkInstr t → savedFunction s.cpu.mem t ≠ 0 →
      P.call linked s.cpu = some entered → Keeps linked s.trampolines entered.mem cpu.mem →
      (∀ x ∈ block linked.cell 8, cpu.mem x = entered.mem x) → P.Threaded linked cpu.gpr →
      Step P linked s
        { s with cpu := cpu, frames := ⟨t, load64 cpu.mem linked.cell⟩ :: s.frames }
  /-- The innermost handler returns. -/
  | ret {s : Thread Reg FReg} {frame : Frame} {frames : List Frame} :
      s.frames = frame :: frames → Step P linked s { s with frames := frames }

/-- The handler stands for the callback of the stub it was entered through. -/
def Frame.Own (m : Memory) (frame : Frame) : Prop :=
  frame.callback = savedFunction m frame.trampoline

/-- In every run of a thread, every call of a stub arrives at a handler, and every handler
that runs has read the `saved_function` of the stub it was entered through. -/
def ReadsOwn (P : Platform Reg FReg) : Prop :=
  ∀ (linked : Linked) (s s' : Thread Reg FReg), linked.Loaded s.cpu.mem →
    Disjoint (block linked.gotEntry 8) (block linked.cell 8) → P.Threaded linked s.cpu.gpr →
    s.trampolines = ∅ → s.frames = [] → ReflTransGen (Step P linked) s s' →
      (∀ t ∈ s'.trampolines, s'.cpu.pc = thunkInstr t → ∃ cpu, P.call linked s'.cpu = some cpu) ∧
        ∀ frame ∈ s'.frames, frame.Own s'.cpu.mem

/-- The invariant of a run. -/
structure Thread.Held (P : Platform Reg FReg) (linked : Linked) (s : Thread Reg FReg) : Prop where
  loaded : linked.Loaded s.cpu.mem
  threaded : P.Threaded linked s.cpu.gpr
  installed : ∀ t ∈ s.trampolines, ∃ target, Installed (P.codegen linked) s.cpu.mem t target
  apart : ∀ t ∈ s.trampolines, Disjoint (block t trampolineSize) (block linked.cell 8)
  frames : ∀ frame ∈ s.frames, frame.trampoline ∈ s.trampolines ∧ frame.callback ≠ 0 ∧
    frame.Own s.cpu.mem

/-- A change of memory that keeps everything keeps the frames. -/
theorem Thread.Held.frames_of_saved {s : Thread Reg FReg} (h : s.Held P linked)
    (hsaved : ∀ t ∈ s.trampolines, savedFunction s.cpu.mem t ≠ 0 →
      savedFunction m t = savedFunction s.cpu.mem t) :
    ∀ frame ∈ s.frames, frame.trampoline ∈ s.trampolines ∧ frame.callback ≠ 0 ∧ frame.Own m := by
  intro frame hframe
  obtain ⟨hmem, hne, hown⟩ := h.frames frame hframe
  refine ⟨hmem, hne, ?_⟩
  rw [Frame.Own, hsaved _ hmem (hown ▸ hne)]
  exact hown

theorem Thread.Held.keeps {s : Thread Reg FReg} {cpu : Cpu Reg FReg} (h : s.Held P linked)
    (hkeeps : Keeps linked s.trampolines s.cpu.mem cpu.mem)
    (hthreaded : P.Threaded linked cpu.gpr) :
    Thread.Held P linked { s with cpu := cpu } where
  loaded := (load64_congr hkeeps.got).trans h.loaded
  threaded := hthreaded
  installed t ht := by
    obtain ⟨target, htarget⟩ := h.installed t ht
    exact ⟨target, htarget.congr (hkeeps.thunk t ht)⟩
  apart := h.apart
  frames := h.frames_of_saved hkeeps.saved

theorem Keeps.trans {trampolines : Set Word} {m'' : Memory} (h : Keeps linked trampolines m m')
    (h' : Keeps linked trampolines m' m'') : Keeps linked trampolines m m'' where
  got x hx := (h'.got x hx).trans (h.got x hx)
  thunk t ht x hx := (h'.thunk t ht x hx).trans (h.thunk t ht x hx)
  saved t ht hne := by
    have heq := h.saved t ht hne
    exact (h'.saved t ht (heq ▸ hne)).trans heq

/-- The store of the shim keeps everything. -/
theorem Thread.Held.keeps_cell {s : Thread Reg FReg} {v : Word} (h : s.Held P linked)
    (hgot : Disjoint (block linked.gotEntry 8) (block linked.cell 8)) :
    Keeps linked s.trampolines s.cpu.mem (store64 s.cpu.mem linked.cell v) where
  got _ hx := store64_of_notMem (Set.disjoint_left.mp hgot hx)
  thunk t ht _ hx := store64_of_notMem
    (Set.disjoint_left.mp (h.apart t ht) (block_thunk_subset t hx))
  saved t ht _ := savedFunction_congr fun _ hx =>
    store64_of_notMem (Set.disjoint_left.mp (h.apart t ht) hx)

/-- A new table does not change the old ones. -/
theorem Thread.Held.create {s : Thread Reg FReg} {count : Nat} {mapping : Mapping count}
    {target : Word} (h : s.Held P linked)
    (hgot : Disjoint (block linked.gotEntry 8) (block mapping.table mapping.size))
    (hcell : Disjoint (block linked.cell 8) (block mapping.table mapping.size))
    (hold : ∀ t ∈ s.trampolines,
      Disjoint (block t trampolineSize) (block mapping.table mapping.size)) :
    Thread.Held P linked
      { s with
        cpu := { s.cpu with
          mem := create (P.codegen linked) s.cpu.mem mapping.table mapping.size count target
            kTrampolineMagic }
        trampolines := s.trampolines ∪ tableTrampolines mapping.table count } := by
  have hsize : mapping.size ≤ 2 ^ 64 := Nat.le_trans (Nat.le_add_left _ _) mapping.fits
  have hfit : tableSize count ≤ 2 ^ 64 := Nat.le_trans mapping.room hsize
  have hmem : ∀ x, x ∉ block mapping.table mapping.size →
      Trampoline.create (P.codegen linked) s.cpu.mem mapping.table mapping.size count target
        kTrampolineMagic x = s.cpu.mem x :=
    fun x hx => create_of_notMem mapping.room hsize hx
  refine ⟨?_, h.threaded, ?_, ?_, fun frame hframe => ?_⟩
  · exact (load64_congr fun x hx => hmem x (Set.disjoint_left.mp hgot hx)).trans h.loaded
  · rintro t (ht | ⟨i, hi, rfl⟩)
    · obtain ⟨target', htarget'⟩ := h.installed t ht
      exact ⟨target', htarget'.congr fun x hx =>
        hmem x (Set.disjoint_left.mp (hold t ht) (block_thunk_subset t hx))⟩
    · exact ⟨target, installed_create hfit hi⟩
  · rintro t (ht | ⟨i, hi, rfl⟩)
    · exact h.apart t ht
    · rw [Set.disjoint_left] at hcell ⊢
      exact fun _ hx hx' => hcell hx'
        (Nat.lt_of_lt_of_le (block_trampolineAt_subset hi hfit hx) mapping.room)
  · obtain ⟨htramp, hne, hown⟩ := h.frames_of_saved (fun t ht _ => savedFunction_congr fun x hx =>
      hmem x (Set.disjoint_left.mp (hold t ht) hx)) frame hframe
    exact ⟨Set.mem_union_left _ htramp, hne, hown⟩

/-- One step of a thread. -/
theorem Step.held {s s' : Thread Reg FReg}
    (hgot : Disjoint (block linked.gotEntry 8) (block linked.cell 8))
    (hstep : Step P linked s s') (h : s.Held P linked) : s'.Held P linked := by
  cases hstep with
  | code hkeeps hthreaded => exact h.keeps hkeeps hthreaded
  | create mapping target hgot' hcell hold => exact h.create hgot' hcell hold
  | @call t entered cpu ht hpc hne hcall hkeeps hcell hthreaded =>
      obtain ⟨target, hinstalled⟩ := h.installed t ht
      obtain ⟨gpr', heq, -⟩ := P.arrives hpc hinstalled h.loaded h.threaded
      have hentered : entered = _ := Option.some.inj (hcall.symm.trans heq)
      subst hentered
      have hall := h.keeps_cell hgot |>.trans hkeeps
      have hheld := h.keeps hall hthreaded
      have hread : load64 cpu.mem linked.cell = savedFunction s.cpu.mem t :=
        (load64_congr hcell).trans (load64_store64 _ _ _)
      refine ⟨hheld.loaded, hthreaded, hheld.installed, h.apart, fun frame hframe => ?_⟩
      rcases List.mem_cons.mp hframe with rfl | hframe
      · exact ⟨ht, hread ▸ hne, hread.trans (hall.saved t ht hne).symm⟩
      · exact hheld.frames frame hframe
  | ret hframes =>
      refine ⟨h.loaded, h.threaded, h.installed, h.apart, fun frame hframe => ?_⟩
      exact h.frames frame (hframes ▸ List.mem_cons_of_mem _ hframe)

theorem Run.held {s s' : Thread Reg FReg}
    (hgot : Disjoint (block linked.gotEntry 8) (block linked.cell 8))
    (hrun : ReflTransGen (Step P linked) s s') (h : s.Held P linked) : s'.Held P linked := by
  induction hrun with
  | refl => exact h
  | tail _ hstep ih => exact hstep.held hgot ih

/-- Whatever the platform. -/
theorem readsOwn (P : Platform Reg FReg) : ReadsOwn P := by
  intro linked s s' hloaded hgot hthreaded htrampolines hframes hrun
  have hheld : s.Held P linked := by
    refine ⟨hloaded, hthreaded, ?_, ?_, ?_⟩
    · simp [htrampolines]
    · simp [htrampolines]
    · simp [hframes]
  have hheld' := Run.held hgot hrun hheld
  refine ⟨fun t ht hpc => ?_, fun frame hframe => (hheld'.frames frame hframe).2.2⟩
  obtain ⟨target, hinstalled⟩ := hheld'.installed t ht
  obtain ⟨gpr', heq, -⟩ := P.arrives hpc hinstalled hheld'.loaded hheld'.threaded
  exact ⟨_, heq⟩

/-! ## All architectures -/

/-- Calls through a stub are transparent, and handlers learn which callback they stand
for, unless the result is returned in memory on aarch64 or the callback is variadic on
x86_64. -/
theorem stub_transparent_iff (arch : Architecture) (sig : Signature) :
    (Transparent arch.platform sig ∧ ReadsOwn arch.platform) ↔
      ¬ (arch = .aarch64 ∧ sig.IndirectResult) ∧ ¬ (arch = .x86_64 ∧ sig.variadic = true) := by
  have hown := readsOwn arch.platform
  cases arch with
  | x86_64 =>
      constructor
      · rintro ⟨htrans, -⟩
        exact ⟨by simp, fun ⟨_, hvariadic⟩ => X8664.not_transparent hvariadic htrans⟩
      · rintro ⟨-, hvariadic⟩
        refine ⟨transparent_of_hidden ?_, hown⟩
        exact if_neg fun hsig => hvariadic ⟨rfl, hsig⟩
  | aarch64 =>
      constructor
      · rintro ⟨htrans, -⟩
        exact ⟨fun ⟨_, hindirect⟩ => AArch64.not_transparent hindirect htrans, by simp⟩
      · rintro ⟨hindirect, -⟩
        refine ⟨transparent_of_hidden ?_, hown⟩
        exact if_neg fun hsig => hindirect ⟨rfl, hsig⟩
  | riscv64 =>
      constructor
      · intro
        constructor <;> simp
      · intro
        exact ⟨transparent_of_hidden rfl, hown⟩

/-- A callback that returns a structure of three words, on aarch64. -/
theorem not_stub_transparent : ¬ ∀ (arch : Architecture) (sig : Signature),
    Transparent arch.platform sig ∧ ReadsOwn arch.platform := by
  intro h
  have hindirect : Signature.IndirectResult ⟨.aggregate 24 false, false⟩ := ⟨by decide, rfl⟩
  exact AArch64.not_transparent hindirect (h .aarch64 ⟨.aggregate 24 false, false⟩).1

end Trampoline

end Lorelei
