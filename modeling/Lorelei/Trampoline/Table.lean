import Lorelei.Lib.Intern
import Lorelei.Trampoline.Codegen

/-!
# The trampoline table of a handler

`FunctionTrampolineTable::create`, `allocCallbackTrampoline` and `unwrapTrampoline`
on a byte-addressed memory: a table is a count followed by trampolines of 56 bytes,
each a `saved_function`, 40 bytes of code and a magic word.

The loop of `allocCallbackTrampoline` stops at the callback or at the first null
`saved_function`, whichever comes first.  On a table whose first trampolines hold
the callbacks `ds` and whose others are free it is `Interning.intern ds`, as long as
the table has room; nothing in the loop looks at the count, so one callback more takes
a trampoline behind the table.
-/

namespace Lorelei.Trampoline

open ByteMemory Interning

/-! ## Layout -/

/-- `sizeof(FunctionTrampoline)`. -/
def trampolineSize : Nat := 56

/-- `offsetof(FunctionTrampoline, thunk_instr)`. -/
def thunkInstrOffset : Nat := 8

/-- `offsetof(FunctionTrampoline, magic_sign)`. -/
def magicSignOffset : Nat := 48

/-- `sizeof(FunctionTrampolineTable)`, also the offset of its `trampoline` array. -/
def tableHeader : Nat := 8

def tableSize (count : Nat) : Nat := tableHeader + count * trampolineSize

def kTrampolineMagic : Word := 0x0B0F0B0F0B0F0B0F

def kMaxCallbackTrampolineCount : Nat := 16

/-- `&table->trampoline[i]`. -/
def trampolineAt (table : Word) (i : Nat) : Word := table + BitVec.ofNat 64 (tableSize i)

/-- `t->thunk_instr`. -/
def thunkInstr (t : Word) : Word := t + BitVec.ofNat 64 thunkInstrOffset

/-- `t->saved_function`. -/
def savedFunction (m : Memory) (t : Word) : Word := load64 m t

/-- `t->magic_sign`. -/
def magicSign (m : Memory) (t : Word) : Word := load64 m (t + BitVec.ofNat 64 magicSignOffset)

/-! ## The functions of the source -/

/-- The body of the loop of `FunctionTrampolineTable::create`. -/
def initTrampoline (codegen : Codegen) (target magic_sign : Word) (thunk : Word) (m : Memory) :
    Memory :=
  let m := store64 m (thunk + BitVec.ofNat 64 magicSignOffset) magic_sign
  let m := store64 m thunk 0
  codegen.trampGenThunk m (thunkInstr thunk) target

/-- `FunctionTrampolineTable::create`, given the `size` zero bytes at `table` that `mmap`
returned. -/
def create (codegen : Codegen) (m : Memory) (table : Word) (size count : Nat)
    (target magic_sign : Word) : Memory :=
  let m := zeroBlock m table size
  let m := store64 m table (BitVec.ofNat 64 count)
  (List.range count).foldl
    (fun m i => initTrampoline codegen target magic_sign (trampolineAt table i) m) m

/-- The loop of `allocCallbackTrampoline` from `t` on, and what follows it.  Only the
first `n` trampolines are mapped: reading behind them is a fault. -/
def findTrampoline (input : Word) (m : Memory) : (n : Nat) → (t : Word) → Option (Word × Memory)
  | 0, _ => none
  | n + 1, t =>
      if savedFunction m t = 0 then
        some (thunkInstr t, store64 m t input)
      else if savedFunction m t = input then
        some (thunkInstr t, m)
      else
        findTrampoline input m n (t + BitVec.ofNat 64 trampolineSize)

/-- The pages `mmap` returns for a table of `count` trampolines: at least as many bytes
as were asked for. -/
structure Mapping (count : Nat) where
  table : Word
  size : Nat
  nonnull : table ≠ 0
  room : tableSize count ≤ size
  fits : table.toNat + size ≤ 2 ^ 64

/-- The number of trampolines whose `saved_function` is in the mapping. -/
def Mapping.readable {count : Nat} (mapping : Mapping count) : Nat :=
  (mapping.size + 40) / trampolineSize

/-- An instance of the template `allocCallbackTrampoline`. -/
structure Handler where
  /-- `(void *) F`. -/
  target : Word
  count : Nat
  codegen : Codegen

/-- What an instance of `allocCallbackTrampoline` works on: the memory and its
thread-local `trampoline`. -/
structure State where
  mem : Memory
  trampoline : Word

/-- `if (!trampoline) trampoline = create(Count, F, kTrampolineMagic)`. -/
def ensureTable (h : Handler) (mapping : Mapping h.count) (s : State) : State :=
  if s.trampoline = 0 then
    { mem := create h.codegen s.mem mapping.table mapping.size h.count h.target kTrampolineMagic
      trampoline := mapping.table }
  else s

/-- `none` is a fault. -/
def allocCallbackTrampoline (h : Handler) (mapping : Mapping h.count) (s : State) (input : Word) :
    Option (Word × State) :=
  if input = 0 then some (0, s)
  else
    let s := ensureTable h mapping s
    (findTrampoline input s.mem mapping.readable (trampolineAt s.trampoline 0)).map fun r =>
      (r.1, { s with mem := r.2 })

def unwrapTrampoline (m : Memory) (fp : Word) : Word :=
  if fp = 0 then fp
  else
    let t := fp - BitVec.ofNat 64 thunkInstrOffset
    if magicSign m t = kTrampolineMagic then savedFunction m t else fp

/-- A sequence of calls, with their results. -/
def allocAll (h : Handler) (mapping : Mapping h.count) (s : State) :
    List Word → Option (List Word × State)
  | [] => some ([], s)
  | input :: inputs => do
      let (r, s) ← allocCallbackTrampoline h mapping s input
      let (rs, s) ← allocAll h mapping s inputs
      return (r :: rs, s)

/-- The stub of a trampoline: what `allocCallbackTrampoline` returns for it. -/
def stub (table : Word) (i : Nat) : Word := thunkInstr (trampolineAt table i)

/-! ## Addresses -/

variable {m m' : Memory} {table x a b : Word} {i j n count : Nat} {ds : List Word}

theorem stub_eq : stub table i = table + BitVec.ofNat 64 (tableSize i + thunkInstrOffset) := by
  rw [stub, thunkInstr, trampolineAt, BitVec.add_assoc, BitVec.ofNat_add]

theorem stub_sub : stub table i - BitVec.ofNat 64 thunkInstrOffset = trampolineAt table i := by
  rw [stub, thunkInstr, BitVec.add_sub_cancel]

theorem tableSize_mono (h : i ≤ j) : tableSize i ≤ tableSize j := by
  simp only [tableSize, trampolineSize]
  omega

/-- A trampoline lies within its table. -/
theorem block_trampolineAt_subset (h : i < count) (hfit : tableSize count ≤ 2 ^ 64) :
    block (trampolineAt table i) trampolineSize ⊆ block table (tableSize count) := by
  refine block_subset ?_ hfit
  have hle := tableSize_mono h
  simp only [tableSize, trampolineSize] at hle ⊢
  omega

theorem block_trampolineAt_disjoint (hij : i < j) (hj : tableSize (j + 1) ≤ 2 ^ 64) :
    Disjoint (block (trampolineAt table i) trampolineSize)
      (block (trampolineAt table j) trampolineSize) := by
  apply block_disjoint_of_offsets
  · have hle := tableSize_mono hij
    simp only [tableSize, trampolineSize] at hle ⊢
    omega
  · simp only [tableSize, trampolineSize] at hj ⊢
    omega

/-- Different trampolines have different stubs. -/
theorem stub_inj (hi : tableSize (i + 1) ≤ 2 ^ 64) (hj : tableSize (j + 1) ≤ 2 ^ 64)
    (h : stub table i = stub table j) : i = j := by
  simp only [tableSize, trampolineSize] at hi hj
  rw [stub_eq, stub_eq] at h
  have hlt (k : Nat) (hk : tableHeader + (k + 1) * 56 ≤ 2 ^ 64) :
      tableSize k + thunkInstrOffset < 2 ^ 64 := by
    simp only [tableSize, tableHeader, trampolineSize, thunkInstrOffset] at hk ⊢
    omega
  have hoff : tableSize i + thunkInstrOffset = tableSize j + thunkInstrOffset :=
    eq_of_add_ofNat_eq (hlt i hi) (hlt j hj) h
  simp only [tableSize, trampolineSize] at hoff
  omega

theorem stub_ne_zero (hfit : table.toNat + tableSize (i + 1) ≤ 2 ^ 64) : stub table i ≠ 0 := by
  rw [stub_eq]
  simp only [tableSize, tableHeader, trampolineSize, thunkInstrOffset] at hfit ⊢
  bv_omega

theorem block_saved_disjoint_thunk (t : Word) :
    Disjoint (block t 8) (block (thunkInstr t) thunkInstrSize) := by
  have h : Disjoint (block (t + BitVec.ofNat 64 0) 8) (block (thunkInstr t) thunkInstrSize) :=
    block_disjoint_of_offsets (by decide) (by decide)
  rwa [BitVec.add_zero] at h

theorem block_saved_disjoint_magic (t : Word) :
    Disjoint (block t 8) (block (t + BitVec.ofNat 64 magicSignOffset) 8) := by
  have h : Disjoint (block (t + BitVec.ofNat 64 0) 8)
      (block (t + BitVec.ofNat 64 magicSignOffset) 8) :=
    block_disjoint_of_offsets (by decide) (by decide)
  rwa [BitVec.add_zero] at h

theorem block_thunk_disjoint_magic (t : Word) :
    Disjoint (block (thunkInstr t) thunkInstrSize)
      (block (t + BitVec.ofNat 64 magicSignOffset) 8) :=
  block_disjoint_of_offsets (by decide) (by decide)

/-! ## Creating a table -/

/-- Initialising a trampoline changes only it. -/
theorem initTrampoline_of_notMem {codegen : Codegen} {target magic_sign t : Word}
    (h : x ∉ block t trampolineSize) :
    initTrampoline codegen target magic_sign t m x = m x := by
  have hthunk : x ∉ block (thunkInstr t) thunkInstrSize := fun hx =>
    h (block_subset (by decide) (by decide) hx)
  have hmagic : x ∉ block (t + BitVec.ofNat 64 magicSignOffset) 8 := fun hx =>
    h (block_subset (by decide) (by decide) hx)
  have hsaved : x ∉ block t 8 := fun hx =>
    h (Nat.lt_trans (mem_block.mp hx) (by decide))
  rw [initTrampoline, codegen.within hthunk, store64_of_notMem hsaved, store64_of_notMem hmagic]

theorem load64_trampGenThunk {codegen : Codegen} {target t : Word}
    (h : Disjoint (block a 8) (block (thunkInstr t) thunkInstrSize)) :
    load64 (codegen.trampGenThunk m (thunkInstr t) target) a = load64 m a :=
  load64_congr fun _ hx => codegen.within (Set.disjoint_left.mp h hx)

theorem savedFunction_initTrampoline {codegen : Codegen} {target magic_sign t : Word} :
    savedFunction (initTrampoline codegen target magic_sign t m) t = 0 := by
  rw [savedFunction, initTrampoline, load64_trampGenThunk (block_saved_disjoint_thunk t),
    load64_store64]

theorem magicSign_initTrampoline {codegen : Codegen} {target magic_sign t : Word} :
    magicSign (initTrampoline codegen target magic_sign t m) t = magic_sign := by
  rw [magicSign, initTrampoline, load64_trampGenThunk (block_thunk_disjoint_magic t).symm,
    load64_store64_of_disjoint (block_saved_disjoint_magic t).symm, load64_store64]

/-- Initialising the first `n` trampolines changes only them. -/
theorem initAll_of_notMem {codegen : Codegen} {target magic_sign : Word}
    (hfit : tableSize n ≤ 2 ^ 64) (h : x ∉ block table (tableSize n)) :
    (List.range n).foldl
      (fun m i => initTrampoline codegen target magic_sign (trampolineAt table i) m) m x = m x := by
  induction n with
  | zero => rfl
  | succ n ih =>
      have hn : tableSize n ≤ tableSize (n + 1) := tableSize_mono (Nat.le_succ n)
      rw [List.range_succ, List.foldl_append, List.foldl_cons, List.foldl_nil,
        initTrampoline_of_notMem fun hx => h (block_trampolineAt_subset n.lt_succ_self hfit hx)]
      exact ih (Nat.le_trans hn hfit) fun hx => h (Nat.lt_of_lt_of_le hx hn)

/-- Every trampoline is left as the body of the loop left it. -/
theorem initAll_trampoline {codegen : Codegen} {target magic_sign : Word}
    (hfit : tableSize n ≤ 2 ^ 64) (hi : i < n) :
    ∃ m₀, ∀ x ∈ block (trampolineAt table i) trampolineSize,
      (List.range n).foldl
        (fun m i => initTrampoline codegen target magic_sign (trampolineAt table i) m) m x =
      initTrampoline codegen target magic_sign (trampolineAt table i) m₀ x := by
  induction n with
  | zero => exact absurd hi (Nat.not_lt_zero i)
  | succ n ih =>
      rw [List.range_succ, List.foldl_append, List.foldl_cons, List.foldl_nil]
      rcases Nat.lt_succ_iff_lt_or_eq.mp hi with hlt | rfl
      · obtain ⟨m₀, hm₀⟩ := ih (Nat.le_trans (tableSize_mono (Nat.le_succ n)) hfit) hlt
        refine ⟨m₀, fun x hx => ?_⟩
        rw [initTrampoline_of_notMem
          (Set.disjoint_left.mp (block_trampolineAt_disjoint hlt hfit) hx)]
        exact hm₀ x hx
      · exact ⟨_, fun x _ => rfl⟩

theorem create_of_notMem {codegen : Codegen} {target magic_sign : Word} {size : Nat}
    (hroom : tableSize count ≤ size) (hsize : size ≤ 2 ^ 64) (h : x ∉ block table size) :
    create codegen m table size count target magic_sign x = m x := by
  have htable : x ∉ block table (tableSize count) := fun hx => h (Nat.lt_of_lt_of_le hx hroom)
  have hheader : x ∉ block table 8 := fun hx =>
    htable (Nat.lt_of_lt_of_le hx (tableSize_mono (Nat.zero_le count)))
  rw [create, initAll_of_notMem (Nat.le_trans hroom hsize) htable, store64_of_notMem hheader,
    zeroBlock_of_notMem h]

/-! ## Occupied trampolines -/

/-- The first trampolines of the table hold the callbacks `ds`, the others are free, and
all carry the magic. -/
structure Occupied (m : Memory) (table : Word) (count : Nat) (ds : List Word) : Prop where
  nodup : ds.Nodup
  nonnull : 0 ∉ ds
  room : ds.length ≤ count
  saved : ∀ i < count, savedFunction m (trampolineAt table i) = ds.getD i 0
  magic : ∀ i < count, magicSign m (trampolineAt table i) = kTrampolineMagic

theorem savedFunction_congr {t : Word} (h : ∀ x ∈ block t trampolineSize, m' x = m x) :
    savedFunction m' t = savedFunction m t :=
  load64_congr fun x hx => h x (Nat.lt_trans (mem_block.mp hx) (by decide))

theorem magicSign_congr {t : Word} (h : ∀ x ∈ block t trampolineSize, m' x = m x) :
    magicSign m' t = magicSign m t :=
  load64_congr fun x hx => h x (block_subset (by decide) (by decide) hx)

/-- A table depends on its own bytes only. -/
theorem Occupied.congr (hfit : tableSize count ≤ 2 ^ 64)
    (hm : ∀ x ∈ block table (tableSize count), m' x = m x) (h : Occupied m table count ds) :
    Occupied m' table count ds where
  nodup := h.nodup
  nonnull := h.nonnull
  room := h.room
  saved i hi := (savedFunction_congr fun x hx =>
    hm x (block_trampolineAt_subset hi hfit hx)).trans (h.saved i hi)
  magic i hi := (magicSign_congr fun x hx =>
    hm x (block_trampolineAt_subset hi hfit hx)).trans (h.magic i hi)

/-- A new table is free. -/
theorem occupied_create {codegen : Codegen} {target : Word} {size : Nat}
    (hfit : tableSize count ≤ 2 ^ 64) :
    Occupied (create codegen m table size count target kTrampolineMagic) table count [] where
  nodup := List.nodup_nil
  nonnull := List.not_mem_nil
  room := Nat.zero_le count
  saved i hi := by
    obtain ⟨m₀, hm₀⟩ := initAll_trampoline hfit hi
    exact (savedFunction_congr hm₀).trans savedFunction_initTrampoline
  magic i hi := by
    obtain ⟨m₀, hm₀⟩ := initAll_trampoline hfit hi
    exact (magicSign_congr hm₀).trans magicSign_initTrampoline

/-- Looking behind the magic of a stub finds what its trampoline stands for. -/
theorem Occupied.unwrap_stub (h : Occupied m table count ds) (hi : i < count)
    (hfit : table.toNat + tableSize count ≤ 2 ^ 64) :
    unwrapTrampoline m (stub table i) = ds.getD i 0 := by
  have hne : stub table i ≠ 0 :=
    stub_ne_zero (Nat.le_trans (Nat.add_le_add_left (tableSize_mono hi) _) hfit)
  rw [unwrapTrampoline, if_neg hne]
  simp only [stub_sub]
  rw [if_pos (h.magic i hi), h.saved i hi]

/-! ## The search loop -/

/-- The loop stops at the callback or at the first free trampoline. -/
theorem findTrampoline_eq {t input : Word} (hnonnull : 0 ∉ ds) (hn : ds.idxOf input < n)
    (hsaved : ∀ i ≤ ds.idxOf input,
      savedFunction m (t + BitVec.ofNat 64 (i * trampolineSize)) = ds.getD i 0) :
    findTrampoline input m n t =
      let t' := t + BitVec.ofNat 64 (ds.idxOf input * trampolineSize)
      some (thunkInstr t', if input ∈ ds then m else store64 m t' input) := by
  induction ds generalizing n t with
  | nil =>
      obtain ⟨n, rfl⟩ := Nat.exists_eq_succ_of_ne_zero (Nat.ne_of_gt hn)
      have hfree : savedFunction m t = 0 := by simpa using hsaved 0 (Nat.zero_le _)
      simp [findTrampoline, hfree]
  | cons d ds ih =>
      obtain ⟨n, rfl⟩ := Nat.exists_eq_succ_of_ne_zero (Nat.ne_zero_of_lt hn)
      have hhead : savedFunction m t = d := by simpa using hsaved 0 (Nat.zero_le _)
      have hd : d ≠ 0 := fun h0 => hnonnull (h0 ▸ List.mem_cons_self)
      rw [findTrampoline, hhead, if_neg hd]
      by_cases hinput : d = input
      · subst hinput
        simp
      · have hidx : (d :: ds).idxOf input = ds.idxOf input + 1 := by
          rw [List.idxOf_cons_ne _ hinput]
        have hshift (i : Nat) : t + BitVec.ofNat 64 trampolineSize +
            BitVec.ofNat 64 (i * trampolineSize) =
              t + BitVec.ofNat 64 ((i + 1) * trampolineSize) := by
          rw [BitVec.add_assoc, ← BitVec.ofNat_add, Nat.succ_mul, Nat.add_comm]
        have htail := ih (n := n) (t := t + BitVec.ofNat 64 trampolineSize)
          (fun h0 => hnonnull (List.mem_cons_of_mem d h0)) (by omega) fun i hi => by
            rw [hshift]
            exact hsaved (i + 1) (by omega)
        have hmem : input ∈ d :: ds ↔ input ∈ ds := by
          simp [Ne.symm hinput]
        rw [if_neg hinput, htail, hidx]
        simp only [hshift, hmem]

end Lorelei.Trampoline
