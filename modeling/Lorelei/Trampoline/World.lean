import Lorelei.Trampoline.Alloc

/-!
# The trampoline tables of a process

Every instance of `allocCallbackTrampoline` has a table of its own on every thread, on
the guest side as on the host side, and all of them lie in one memory.  An allocation
works on one table and leaves the others as they are, since a new table is put where
no other is.
-/

namespace Lorelei.Trampoline

open ByteMemory Interning Function

/-- The memory, and the thread-local `trampoline` of every instance on every thread. -/
structure World (κ : Type) where
  mem : Memory
  trampoline : κ → Word

variable {κ : Type} {handler : κ → Handler} {w w' : World κ} {k k' : κ} {ds : κ → List Word}
variable {m' : Memory} {x a input : Word} {i : Nat}

namespace World

def state (w : World κ) (k : κ) : State := ⟨w.mem, w.trampoline k⟩

/-- Write a pointer into a slot. -/
def store (w : World κ) (slot v : Word) : World κ := { w with mem := store64 w.mem slot v }

/-- `allocCallbackTrampoline` of the instance `k`. -/
def alloc [DecidableEq κ] (handler : κ → Handler) (k : κ) (mapping : Mapping (handler k).count)
    (w : World κ) (input : Word) : Option (Word × World κ) :=
  (allocCallbackTrampoline (handler k) mapping (w.state k) input).map fun r =>
    (r.1, { mem := r.2.mem, trampoline := update w.trampoline k r.2.trampoline })

/-- The bytes of the table of `k`. -/
def tableBlock (handler : κ → Handler) (w : World κ) (k : κ) : Set Word :=
  block (w.trampoline k) (tableSize (handler k).count)

/-- These bytes are in no table. -/
def Untouched (handler : κ → Handler) (w : World κ) (bytes : Set Word) : Prop :=
  ∀ k, w.trampoline k ≠ 0 → Disjoint bytes (w.tableBlock handler k)

/-- Each table holds its callbacks, and the tables are apart. -/
structure Holds (handler : κ → Handler) (w : World κ) (ds : κ → List Word) : Prop where
  table : ∀ k, (w.state k).Holds (handler k).count (ds k)
  apart : ∀ {k k'}, k ≠ k' → w.trampoline k ≠ 0 → w.trampoline k' ≠ 0 →
    Disjoint (w.tableBlock handler k) (w.tableBlock handler k')

/-- The pages for the table of `k`, if it has to be created, are not those of a table. -/
def Fresh (handler : κ → Handler) (w : World κ) (k : κ) (mapping : Mapping (handler k).count) :
    Prop :=
  w.trampoline k = 0 → w.Untouched handler (block mapping.table mapping.size)

/-! ## Frames -/

theorem Holds.table_fits (hw : w.Holds handler ds) (hk : w.trampoline k ≠ 0) :
    tableSize (handler k).count ≤ 2 ^ 64 :=
  Nat.le_trans (Nat.le_add_left _ _) ((hw.table k).fits hk)

/-- What is outside the tables does not matter to them. -/
theorem Holds.congr (hw : w.Holds handler ds) (htramp : w'.trampoline = w.trampoline)
    (hm : ∀ k, w.trampoline k ≠ 0 → ∀ x ∈ w.tableBlock handler k, w'.mem x = w.mem x) :
    w'.Holds handler ds := by
  have hstate (k : κ) : (w'.state k).trampoline = w.trampoline k := by
    rw [state, htramp]
  constructor
  · intro k
    constructor
    · intro hk
      exact (hw.table k).unasked ((hstate k).symm.trans hk)
    · rw [hstate]
      exact (hw.table k).fits
    · rw [hstate]
      intro hk
      exact ((hw.table k).occupied hk).congr (hw.table_fits hk) (hm k hk)
  · intro k k' hne
    rw [tableBlock, tableBlock, htramp]
    exact hw.apart hne

theorem Holds.store (hw : w.Holds handler ds) {slot v : Word}
    (hslot : w.Untouched handler (block slot 8)) : (w.store slot v).Holds handler ds :=
  hw.congr rfl fun k hk _ hx =>
    store64_of_notMem fun hmem => Set.disjoint_left.mp (hslot k hk) hmem hx

/-- A call reaches no other table. -/
theorem Holds.reach_disjoint (hw : w.Holds handler ds) {mapping : Mapping (handler k).count}
    (hfresh : w.Fresh handler k mapping) (hne : k' ≠ k) (hk' : w.trampoline k' ≠ 0) :
    Disjoint ((w.state k).reach mapping) (w.tableBlock handler k') := by
  rw [State.reach]
  by_cases hnull : (w.state k).trampoline = 0
  · rw [if_pos hnull]
    exact hfresh hnull k' hk'
  · rw [if_neg hnull]
    exact hw.apart hne.symm hnull hk'

/-! ## Allocation -/

variable [DecidableEq κ]

@[simp] theorem alloc_null (mapping : Mapping (handler k).count) :
    alloc handler k mapping w 0 = some (0, w) := by
  simp [alloc, allocCallbackTrampoline, state]

/-- An allocation interns its callback in its table and leaves the other tables alone. -/
theorem alloc_spec (hw : w.Holds handler ds) {mapping : Mapping (handler k).count}
    (hfresh : w.Fresh handler k mapping) (hne : input ≠ 0)
    (hroom : (intern (ds k) input).length ≤ (handler k).count) :
    ∃ w', alloc handler k mapping w input =
        some (stub (w'.trampoline k) ((ds k).idxOf input), w') ∧
      w'.trampoline k ≠ 0 ∧
      w'.trampoline = update w.trampoline k ((w.state k).tableFor mapping) ∧
      w'.Holds handler (update ds k (intern (ds k) input)) ∧
      ∀ x ∉ (w.state k).reach mapping, w'.mem x = w.mem x := by
  obtain ⟨s', halloc, htable, hnonnull, hs', hframe⟩ :=
    allocCallbackTrampoline_spec mapping (hw.table k) hne hroom
  let w' : World κ := ⟨s'.mem, update w.trampoline k s'.trampoline⟩
  have hself : w'.trampoline k = s'.trampoline := update_self k _ _
  have hother {k' : κ} (h : k' ≠ k) : w'.trampoline k' = w.trampoline k' := update_of_ne h _ _
  have hsub : w'.tableBlock handler k ⊆ (w.state k).reach mapping := by
    rw [tableBlock, hself, htable]
    exact State.block_subset_reach _ mapping
  refine ⟨w', ?_, hself ▸ hnonnull, ?_, ⟨?_, ?_⟩, hframe⟩
  · rw [alloc, halloc, hself, htable]
    rfl
  · rw [← htable]
  · intro k'
    by_cases h : k' = k
    · subst h
      have hstate : w'.state k' = s' := by rw [state, hself]
      rw [hstate, update_self]
      exact hs'
    · rw [update_of_ne h]
      have hstate : (w'.state k').trampoline = w.trampoline k' := hother h
      constructor
      · intro hk'
        exact (hw.table k').unasked (hstate.symm.trans hk')
      · rw [hstate]
        exact (hw.table k').fits
      · rw [hstate]
        intro hk'
        exact ((hw.table k').occupied hk').congr (hw.table_fits hk') fun x hx =>
          hframe x fun hmem => Set.disjoint_left.mp (hw.reach_disjoint hfresh h hk') hmem hx
  · have hnew {k' : κ} (h : k' ≠ k) (hk' : w'.trampoline k' ≠ 0) :
        Disjoint (w'.tableBlock handler k) (w'.tableBlock handler k') := by
      rw [hother h] at hk'
      have hblock : w'.tableBlock handler k' = w.tableBlock handler k' := by
        rw [tableBlock, tableBlock, hother h]
      rw [hblock]
      exact (hw.reach_disjoint hfresh h hk').mono_left hsub
    intro k₁ k₂ hne₁₂ hk₁ hk₂
    by_cases h₁ : k₁ = k
    · subst h₁
      exact hnew (Ne.symm hne₁₂) hk₂
    by_cases h₂ : k₂ = k
    · subst h₂
      exact (hnew h₁ hk₁).symm
    rw [hother h₁] at hk₁
    rw [hother h₂] at hk₂
    have happ := hw.apart hne₁₂ hk₁ hk₂
    rw [tableBlock, tableBlock] at happ ⊢
    rwa [hother h₁, hother h₂]

/-- A table that there is stays where it is. -/
theorem trampoline_update {mapping : Mapping (handler k).count}
    (htramp : w'.trampoline = update w.trampoline k ((w.state k).tableFor mapping))
    (hk' : w.trampoline k' ≠ 0) : w'.trampoline k' = w.trampoline k' := by
  rw [htramp]
  by_cases h : k' = k
  · subst h
    rw [update_self]
    exact State.tableFor_of_ne hk' mapping
  · exact update_of_ne h _ _

/-- After an allocation a table is where it was, or is the new one. -/
theorem tableBlock_update {mapping : Mapping (handler k).count}
    (htramp : w'.trampoline = update w.trampoline k ((w.state k).tableFor mapping))
    (hk' : w'.trampoline k' ≠ 0) :
    (w.trampoline k' ≠ 0 ∧ w'.tableBlock handler k' = w.tableBlock handler k') ∨
      (k' = k ∧ w.trampoline k = 0 ∧
        w'.tableBlock handler k' ⊆ block mapping.table mapping.size) := by
  by_cases h0 : w.trampoline k' = 0
  · right
    have hk : k' = k := by
      by_contra h
      rw [htramp, update_of_ne h] at hk'
      exact hk' h0
    subst hk
    refine ⟨rfl, h0, ?_⟩
    have hnull : (w.state k').trampoline = 0 := h0
    rw [tableBlock, htramp, update_self, State.tableFor, if_pos hnull]
    exact fun x hx => Nat.lt_of_lt_of_le hx mapping.room
  · left
    refine ⟨h0, ?_⟩
    rw [tableBlock, tableBlock, trampoline_update htramp h0]

/-- Bytes apart from the tables and from a new one stay apart. -/
theorem Untouched.update {bytes : Set Word} {mapping : Mapping (handler k).count}
    (h : w.Untouched handler bytes) (hnew : Disjoint bytes (block mapping.table mapping.size))
    (htramp : w'.trampoline = update w.trampoline k ((w.state k).tableFor mapping)) :
    w'.Untouched handler bytes := by
  intro k' hk'
  rcases tableBlock_update htramp hk' with ⟨hk, hblock⟩ | ⟨-, -, hsub⟩
  · rw [hblock]
    exact h k' hk
  · exact hnew.mono_right hsub

/-! ## Unwrapping -/

omit [DecidableEq κ] in
theorem Holds.trampoline_ne_zero (hw : w.Holds handler ds) (ha : a ∈ ds k) :
    w.trampoline k ≠ 0 := by
  intro hnull
  have hnil : ds k = [] := (hw.table k).unasked hnull
  rw [hnil] at ha
  exact absurd ha List.not_mem_nil

omit [DecidableEq κ] in
/-- A callback's trampoline stands for it. -/
theorem Holds.savedFunction_idxOf (hw : w.Holds handler ds) (ha : a ∈ ds k) :
    (ds k).idxOf a < (handler k).count ∧
      savedFunction w.mem (trampolineAt (w.trampoline k) ((ds k).idxOf a)) = a := by
  have hocc := (hw.table k).occupied (hw.trampoline_ne_zero ha)
  have hidx : (ds k).idxOf a < (handler k).count :=
    Nat.lt_of_lt_of_le (List.idxOf_lt_length_of_mem ha) hocc.room
  have hget : (ds k).getD ((ds k).idxOf a) 0 = a := by
    rw [List.getD_eq_getElem?_getD, List.getElem?_idxOf ha]
    rfl
  exact ⟨hidx, (hocc.saved _ hidx).trans hget⟩

omit [DecidableEq κ] in
theorem Holds.unwrap_stub (hw : w.Holds handler ds) (ha : a ∈ ds k) :
    unwrapTrampoline w.mem (stub (w.trampoline k) ((ds k).idxOf a)) = a := by
  have hnonnull := hw.trampoline_ne_zero ha
  have hocc := (hw.table k).occupied hnonnull
  obtain ⟨hidx, hsaved⟩ := hw.savedFunction_idxOf ha
  exact (hocc.unwrap_stub hidx ((hw.table k).fits hnonnull)).trans
    ((hocc.saved _ hidx).symm.trans hsaved)

omit [DecidableEq κ] in
/-- A stub lies in its table. -/
theorem Holds.stub_mem_tableBlock (hw : w.Holds handler ds) (hk : w.trampoline k ≠ 0)
    (hi : i < (handler k).count) : stub (w.trampoline k) i ∈ w.tableBlock handler k := by
  apply block_trampolineAt_subset hi (hw.table_fits hk)
  exact add_mem_block (by decide)

end World

end Lorelei.Trampoline
