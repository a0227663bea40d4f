import Lorelei.Trampoline.Pointer

/-!
# Substituting the pointer in a slot

`CallbackContext::init` looks behind the pointer in a slot for the function it stands
for, and puts there what the receiver can call: the function itself when it is native
to the receiver, and a stub for it otherwise.  `CallbackContext::fini` puts back what
the slot held.
-/

namespace Lorelei.Trampoline

open ByteMemory

variable {κ : Type}

/-- `CallbackContext`: the slot that was substituted, and what it held. -/
structure CallbackContext where
  p_fp : Word := 0
  org_fp : Word := 0
deriving DecidableEq

/-- `CallbackContext::init<isGuest>(fp, allocator)`, for the slot at `fp`. -/
def CallbackContext.init (isGuest : Bool) (isHostAddress : Word → Bool)
    (allocator : World κ → Word → Option (Word × World κ)) (w : World κ) (fp : Word) :
    Option (CallbackContext × World κ) :=
  let real := unwrapTrampoline w.mem (load64 w.mem fp)
  if isGuest ≠ isHostAddress real then
    (allocator w real).map fun r => (⟨fp, load64 w.mem fp⟩, r.2.store fp r.1)
  else if real ≠ load64 w.mem fp then
    some (⟨fp, load64 w.mem fp⟩, w.store fp real)
  else
    some ({}, w)

/-- `CallbackContext::fini()`. -/
def CallbackContext.fini (ctx : CallbackContext) (w : World κ) : World κ :=
  if ctx.org_fp ≠ 0 then w.store ctx.p_fp ctx.org_fp else w

variable {w w' : World κ} {isGuest : Bool} {isHostAddress : Word → Bool} {fp : Word}
variable {ctx : CallbackContext}

/-- A function foreign to the receiver is replaced by a stub. -/
theorem CallbackContext.init_of_foreign {allocator : World κ → Word → Option (Word × World κ)}
    {v real r : Word} {w₁ : World κ} (hv : load64 w.mem fp = v)
    (hreal : unwrapTrampoline w.mem v = real) (hforeign : isGuest ≠ isHostAddress real)
    (halloc : allocator w real = some (r, w₁)) :
    CallbackContext.init isGuest isHostAddress allocator w fp = some (⟨fp, v⟩, w₁.store fp r) := by
  simp only [CallbackContext.init, hv, hreal]
  rw [if_pos hforeign, halloc]
  rfl

/-- The stub of a function native to the receiver is replaced by the function. -/
theorem CallbackContext.init_of_stub {allocator : World κ → Word → Option (Word × World κ)}
    {v real : Word} (hv : load64 w.mem fp = v) (hreal : unwrapTrampoline w.mem v = real)
    (hnative : isGuest = isHostAddress real) (hne : real ≠ v) :
    CallbackContext.init isGuest isHostAddress allocator w fp =
      some (⟨fp, v⟩, w.store fp real) := by
  simp only [CallbackContext.init, hv, hreal]
  rw [if_neg (not_not.mpr hnative), if_pos hne]

/-- A function native to the receiver is left as it is. -/
theorem CallbackContext.init_of_native {allocator : World κ → Word → Option (Word × World κ)}
    {v : Word} (hv : load64 w.mem fp = v) (hreal : unwrapTrampoline w.mem v = v)
    (hnative : isGuest = isHostAddress v) :
    CallbackContext.init isGuest isHostAddress allocator w fp = some ({}, w) := by
  simp only [CallbackContext.init, hv, hreal]
  rw [if_neg (not_not.mpr hnative), if_neg (not_not.mpr rfl)]

/-- What `init` does to its slot, given the function the pointer stands for. -/
theorem CallbackContext.init_cases {allocator : World κ → Word → Option (Word × World κ)}
    (h : CallbackContext.init isGuest isHostAddress allocator w fp = some (ctx, w')) :
    let v := load64 w.mem fp
    let real := unwrapTrampoline w.mem v
    (isGuest ≠ isHostAddress real ∧ ∃ r w₁, allocator w real = some (r, w₁) ∧
        ctx = ⟨fp, v⟩ ∧ w' = w₁.store fp r) ∨
      (isGuest = isHostAddress real ∧ real ≠ v ∧ ctx = ⟨fp, v⟩ ∧ w' = w.store fp real) ∨
      (isGuest = isHostAddress real ∧ real = v ∧ ctx = {} ∧ w' = w) := by
  intro v real
  rw [CallbackContext.init] at h
  by_cases hforeign : isGuest ≠ isHostAddress real
  · rw [if_pos hforeign, Option.map_eq_some_iff] at h
    obtain ⟨⟨r, w₁⟩, halloc, heq⟩ := h
    cases heq
    exact .inl ⟨hforeign, r, w₁, halloc, rfl, rfl⟩
  · rw [if_neg hforeign] at h
    rw [ne_eq, not_not] at hforeign
    by_cases hreal : real ≠ v
    · rw [if_pos hreal] at h
      cases h
      exact .inr (.inl ⟨hforeign, hreal, rfl, rfl⟩)
    · rw [if_neg hreal] at h
      rw [ne_eq, not_not] at hreal
      cases h
      exact .inr (.inr ⟨hforeign, hreal, rfl, rfl⟩)

end Lorelei.Trampoline
