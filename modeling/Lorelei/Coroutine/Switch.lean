import Lorelei.Coroutine.Arch.X8664
import Lorelei.Coroutine.Arch.AArch64
import Lorelei.Coroutine.Arch.RiscV64

/-!
# What a coroutine finds in its registers when control comes back

`coroutine_start` and `coroutine_switch` on the three host architectures, run by a
driver with any number of nested invocations and arbitrary code between the
transfers (`ContextSwitch.Step`).

Every integer register that a call must preserve, and the stack pointer, comes back
as it was.  On aarch64 and riscv64 a call must preserve floating-point registers
too, and the routines neither save nor restore them: they come back as they were
only if no code changes them while a context is suspended, and
`not_preserved_aarch64` is a run in which they do not.
-/

namespace Lorelei

open ByteMemory ContextSwitch Function

def Architecture.routines : (arch : Architecture) → Routines arch.Reg arch.FReg
  | .x86_64 => Coroutine.X8664.routines
  | .aarch64 => Coroutine.AArch64.routines
  | .riscv64 => Coroutine.RiscV64.routines

namespace Coroutine

/-- Whenever control comes back to a context, every callee-saved register is as it was
when the context made its call. -/
def CalleeSavedPreserved {Reg FReg : Type} (R : Routines Reg FReg) : Prop :=
  ∀ (main : Word) (s t : ContextSwitch.State Reg FReg) (es : List (ContextSwitch.Event Reg FReg)),
    s.contexts = .driving [] → Run R main s es t →
      ∀ e ∈ es, e.Restores R ∧ e.RestoresFloats R

/-- The callee-saved registers are preserved in every run on x86_64, and on the other
architectures in every run whose code leaves the callee-saved floating-point registers
alone while a context is suspended. -/
theorem calleeSaved_preserved (arch : Architecture) {main : Word}
    {s t : ContextSwitch.State arch.Reg arch.FReg}
    {es : List (ContextSwitch.Event arch.Reg arch.FReg)} (hidle : s.contexts = .driving [])
    (hrun : Run arch.routines main s es t)
    (hfloats : arch = .x86_64 ∨ ∀ e ∈ es, e.Quiet arch.routines) :
    ∀ e ∈ es, e.Restores arch.routines ∧ e.RestoresFloats arch.routines := by
  have hheld : Held arch.routines main s := held_of_idle hidle
  intro e he
  refine ⟨hrun.restores hheld e he, ?_⟩
  rcases hfloats with rfl | hquiet
  · exact Event.restoresFloats_of_none rfl e
  · refine hrun.restoresFloats hquiet hheld (fun σ hσ => ?_) e he
    simp [hidle, Contexts.suspended] at hσ

namespace AArch64

open Lorelei.AArch64

/-- An idle thread whose registers are all zero. -/
def idle : ContextSwitch.State Reg DReg :=
  ⟨⟨fun _ => 0, fun _ => 0, 0, fun _ => 0⟩, .driving []⟩

/-- The driver of an idle thread starts an invocation, which leaves `f` in the
floating-point registers and switches back. -/
theorem run_start_yield (f : DReg → Word) :
    ∃ (t : ContextSwitch.State Reg DReg) (σ : Suspension Reg DReg) (cpu : Cpu),
      Run routines 0 idle [.started, .code [σ] (fun _ => 0) f, .back σ cpu] t ∧
        σ.fpr = (fun _ => 0) ∧ cpu.fpr = f := by
  let σ : Suspension Reg DReg := ⟨fun _ => 0, fun _ => 0, 0, 0⟩
  let s₁ : ContextSwitch.State Reg DReg :=
    ⟨start idle.cpu 0 0, .inProc σ ⟨(start idle.cpu 0 0).gpr, (start idle.cpu 0 0).fpr, 0⟩ []⟩
  let cpu₂ : Cpu := ⟨update (fun _ => 0) (.x 0) 4096, f, 0, s₁.cpu.mem⟩
  let s₂ : ContextSwitch.State Reg DReg := ⟨cpu₂, s₁.contexts⟩
  have hstart : Step routines 0 idle .started s₁ := by
    refine Step.start 0 0 rfl rfl ⟨trivial, ?_⟩ ⟨Set.empty_disjoint _, ?_⟩
    · simp [idle, Contexts.suspended]
    · simp [idle, Contexts.suspended]
  have hcode : Step routines 0 s₁ (.code [σ] (fun _ => 0) f) s₂ :=
    @Step.code _ _ routines 0 s₁ cpu₂ fun _ _ _ _ => rfl
  have hdisj : Disjoint (block 4096 sizeofRegState) (block 0 sizeofRegState) :=
    (block_disjoint_of_le (by decide) (by decide)).symm
  have hyield : Step routines 0 s₂ (.back σ (switch cpu₂ 0))
      ⟨switch cpu₂ 0, .driving [(⟨(start idle.cpu 0 0).gpr, (start idle.cpu 0 0).fpr, 0⟩,
        ⟨cpu₂.gpr, f, 0, 4096⟩)]⟩ := by
    refine Step.yield 0 rfl rfl rfl ⟨trivial, fun σ' hσ' => ?_⟩
    rw [List.mem_singleton.mp hσ']
    exact hdisj
  exact ⟨_, σ, switch cpu₂ 0, .cons hstart (.cons hcode (.cons hyield (.nil _))), rfl, rfl⟩

end AArch64

/-- An invocation that keeps the floating-point registers. -/
theorem calleeSaved_preserved_quiet :
    ∃ (t : ContextSwitch.State AArch64.Reg AArch64.DReg)
      (σ : Suspension AArch64.Reg AArch64.DReg) (cpu : AArch64.Cpu),
      Run AArch64.routines 0 AArch64.idle
        [.started, .code [σ] (fun _ => 0) (fun _ => 0), .back σ cpu] t ∧
      (Event.back σ cpu).Restores AArch64.routines := by
  obtain ⟨t, σ, cpu, hrun, -, -⟩ := AArch64.run_start_yield fun _ => 0
  have hquiet : ∀ e ∈
      [ContextSwitch.Event.started, .code [σ] (fun _ => 0) (fun _ => 0), .back σ cpu],
      e.Quiet AArch64.routines := by
    simp [Event.Quiet]
  exact ⟨t, σ, cpu, hrun, (calleeSaved_preserved .aarch64 rfl hrun (.inr hquiet) _
    (.tail _ (.tail _ (.head _)))).1⟩

/-- On aarch64 an invocation that changes `d8` and calls back leaves its driver with the
changed `d8`. -/
theorem not_preserved_aarch64 : ¬ ∀ arch : Architecture, CalleeSavedPreserved arch.routines := by
  intro h
  obtain ⟨t, σ, cpu, hrun, hσ, hcpu⟩ := AArch64.run_start_yield fun _ => 1
  have haarch64 : CalleeSavedPreserved AArch64.routines := h .aarch64
  have hback := (haarch64 0 AArch64.idle t _ rfl hrun (.back σ cpu) (by simp)).2
  have hd8 : cpu.fpr 8 = σ.fpr 8 := hback 8 (by decide)
  rw [hσ, hcpu] at hd8
  exact absurd hd8 (by decide)

end Coroutine

end Lorelei
