import Mathlib.Algebra.Group.Nat.Defs
import Mathlib.Data.Set.BooleanAlgebra
import Mathlib.Order.CompletePartialOrder

/-!
# A byte-addressed memory with 64-bit words

Memory is a function from 64-bit addresses to bytes; words are stored little
endian.  Which bytes a load depends on and which a store changes is said with
blocks of addresses, so that a frame condition is a disjointness of sets.

A record in memory is a list of fields, each a word at a fixed offset: writing them
all and reading one back is the only law a saved register file needs.
-/

namespace ByteMemory

abbrev Word := BitVec 64

abbrev Memory := Word → BitVec 8

/-- The `n` bytes from `a` on, wrapping around at the end of the address space. -/
def block (a : Word) (n : Nat) : Set Word := {x | (x - a).toNat < n}

/-- The `i`-th byte of a word. -/
def byte (v : Word) (i : Nat) : BitVec 8 := v.extractLsb' (8 * i) 8

def load64 (m : Memory) (a : Word) : Word :=
  m (a + 7) ++ m (a + 6) ++ m (a + 5) ++ m (a + 4) ++ m (a + 3) ++ m (a + 2) ++ m (a + 1) ++ m a

def store64 (m : Memory) (a v : Word) : Memory :=
  fun x => if (x - a).toNat < 8 then byte v (x - a).toNat else m x

def load32 (m : Memory) (a : Word) : BitVec 32 := m (a + 3) ++ m (a + 2) ++ m (a + 1) ++ m a

variable {m m' : Memory} {a b v x : Word} {n off : Nat}

/-! ## Blocks -/

@[simp] theorem mem_block : x ∈ block a n ↔ (x - a).toNat < n := Iff.rfl

theorem add_mem_block {i : Word} (h : i.toNat < n) : a + i ∈ block a n := by
  rw [mem_block, BitVec.add_comm a i, BitVec.add_sub_cancel]
  exact h

theorem self_mem_block (h : 0 < n) : a ∈ block a n := by
  rw [mem_block, BitVec.sub_self]
  exact h

/-- A part of a block is in it. -/
theorem block_subset {k : Nat} (h : off + k ≤ n) (hn : n ≤ 2 ^ 64) :
    block (a + BitVec.ofNat 64 off) k ⊆ block a n := by
  intro x hx
  rw [mem_block] at hx ⊢
  bv_omega

/-- Parts of a block at offsets that are far enough apart do not meet. -/
theorem block_disjoint_of_offsets {off' k k' : Nat} (h : off + k ≤ off')
    (h' : off' + k' ≤ 2 ^ 64) :
    Disjoint (block (a + BitVec.ofNat 64 off) k) (block (a + BitVec.ofNat 64 off') k') := by
  rw [Set.disjoint_left]
  intro x hx hx'
  rw [mem_block] at hx hx'
  bv_omega

/-- Two blocks that do not wrap around do not meet when one ends before the other
starts. -/
theorem block_disjoint_of_le {k : Nat} (h : a.toNat + n ≤ b.toNat) (h' : b.toNat + k ≤ 2 ^ 64) :
    Disjoint (block a n) (block b k) := by
  rw [Set.disjoint_left]
  intro x hx hx'
  rw [mem_block] at hx hx'
  bv_omega

/-- Different offsets are different addresses. -/
theorem eq_of_add_ofNat_eq {off' : Nat} (h : off < 2 ^ 64) (h' : off' < 2 ^ 64)
    (heq : a + BitVec.ofNat 64 off = a + BitVec.ofNat 64 off') : off = off' := by
  have hoff := congrArg BitVec.toNat ((BitVec.add_right_inj a).mp heq)
  rwa [BitVec.toNat_ofNat, BitVec.toNat_ofNat, Nat.mod_eq_of_lt h, Nat.mod_eq_of_lt h'] at hoff

/-! ## Loads and stores -/

theorem bytes_append (v : Word) :
    byte v 7 ++ byte v 6 ++ byte v 5 ++ byte v 4 ++ byte v 3 ++ byte v 2 ++ byte v 1 ++
      byte v 0 = v := by
  simp only [byte]
  iterate 7 rw [BitVec.extractLsb'_append_extractLsb'_eq_extractLsb' (by rfl)]
  exact BitVec.extractLsb'_eq_self

theorem bytes32_append (w : BitVec 32) :
    w.extractLsb' 24 8 ++ w.extractLsb' 16 8 ++ w.extractLsb' 8 8 ++ w.extractLsb' 0 8 = w := by
  iterate 3 rw [BitVec.extractLsb'_append_extractLsb'_eq_extractLsb' (by rfl)]
  exact BitVec.extractLsb'_eq_self

/-- A load depends on its eight bytes only. -/
theorem load64_congr (h : ∀ x ∈ block a 8, m' x = m x) : load64 m' a = load64 m a := by
  have hi (i : Word) (hlt : i.toNat < 8) : m' (a + i) = m (a + i) := h _ (add_mem_block hlt)
  rw [load64, load64, hi 1 (by decide), hi 2 (by decide), hi 3 (by decide), hi 4 (by decide),
    hi 5 (by decide), hi 6 (by decide), hi 7 (by decide), h a (self_mem_block (by decide))]

theorem store64_of_notMem (h : x ∉ block a 8) : store64 m a v x = m x := if_neg h

theorem store64_add {i : Word} (h : i.toNat < 8) : store64 m a v (a + i) = byte v i.toNat := by
  rw [store64, BitVec.add_comm a i, BitVec.add_sub_cancel, if_pos h]

@[simp] theorem load64_store64 (m : Memory) (a v : Word) : load64 (store64 m a v) a = v := by
  have h₀ : store64 m a v a = byte v 0 := by
    simpa using store64_add (m := m) (a := a) (v := v) (i := 0) (by decide)
  rw [load64, h₀, store64_add (i := 1) (by decide), store64_add (i := 2) (by decide),
    store64_add (i := 3) (by decide), store64_add (i := 4) (by decide),
    store64_add (i := 5) (by decide), store64_add (i := 6) (by decide),
    store64_add (i := 7) (by decide)]
  exact bytes_append v

theorem load64_store64_of_disjoint (h : Disjoint (block a 8) (block b 8)) :
    load64 (store64 m b v) a = load64 m a :=
  load64_congr fun _ hx => store64_of_notMem (Set.disjoint_left.mp h hx)

/-! ## Runs of bytes -/

/-- Store consecutive bytes. -/
def storeBytes (m : Memory) (a : Word) (bs : List (BitVec 8)) : Memory :=
  fun x => bs[(x - a).toNat]?.getD (m x)

/-- The bytes of a word, the lowest first. -/
def wordBytes (v : Word) : List (BitVec 8) :=
  [byte v 0, byte v 1, byte v 2, byte v 3, byte v 4, byte v 5, byte v 6, byte v 7]

/-- The bytes of a 32-bit word, the lowest first. -/
def word32Bytes (v : BitVec 32) : List (BitVec 8) :=
  [v.extractLsb' 0 8, v.extractLsb' 8 8, v.extractLsb' 16 8, v.extractLsb' 24 8]

/-- Set the `n` bytes from `a` on to zero. -/
def zeroBlock (m : Memory) (a : Word) (n : Nat) : Memory :=
  fun x => if (x - a).toNat < n then 0 else m x

/-- These bytes are in memory from `a` on. -/
def BytesAt (m : Memory) (a : Word) (bs : List (BitVec 8)) : Prop :=
  ∀ i (h : i < bs.length), m (a + BitVec.ofNat 64 i) = bs[i]

theorem storeBytes_of_notMem {bs : List (BitVec 8)} (h : x ∉ block a bs.length) :
    storeBytes m a bs x = m x := by
  rw [mem_block, Nat.not_lt] at h
  rw [storeBytes, List.getElem?_eq_none h]
  rfl

theorem storeBytes_add {bs : List (BitVec 8)} {i : Nat} (h : i < bs.length) (hi : i < 2 ^ 64) :
    storeBytes m a bs (a + BitVec.ofNat 64 i) = bs[i] := by
  have hsub : (a + BitVec.ofNat 64 i - a).toNat = i := by bv_omega
  rw [storeBytes, hsub, List.getElem?_eq_getElem h]
  rfl

theorem bytesAt_storeBytes {bs : List (BitVec 8)} (h : bs.length ≤ 2 ^ 64) :
    BytesAt (storeBytes m a bs) a bs :=
  fun _ hi => storeBytes_add hi (Nat.lt_of_lt_of_le hi h)

theorem BytesAt.congr {bs : List (BitVec 8)} (hlen : bs.length ≤ 2 ^ 64)
    (hm : ∀ x ∈ block a bs.length, m' x = m x) (h : BytesAt m a bs) : BytesAt m' a bs := by
  intro i hi
  rw [hm (a + BitVec.ofNat 64 i), h i hi]
  apply add_mem_block
  rw [BitVec.toNat_ofNat, Nat.mod_eq_of_lt (Nat.lt_of_lt_of_le hi hlen)]
  exact hi

theorem bytesAt_append {bs cs : List (BitVec 8)} : BytesAt m a (bs ++ cs) ↔
    BytesAt m a bs ∧ BytesAt m (a + BitVec.ofNat 64 bs.length) cs := by
  constructor
  · intro h
    constructor
    · intro i hi
      rw [h i (by rw [List.length_append]; omega), List.getElem_append_left hi]
    · intro i hi
      rw [BitVec.add_assoc, ← BitVec.ofNat_add, h _ (by rw [List.length_append]; omega),
        List.getElem_append_right (Nat.le_add_right _ _)]
      simp only [Nat.add_sub_cancel_left]
  · rintro ⟨hbs, hcs⟩ i hi
    rcases Nat.lt_or_ge i bs.length with hlt | hge
    · rw [hbs i hlt, List.getElem_append_left hlt]
    · obtain ⟨j, rfl⟩ := Nat.exists_eq_add_of_le hge
      rw [List.length_append] at hi
      rw [BitVec.ofNat_add, ← BitVec.add_assoc, hcs j (by omega), List.getElem_append_right hge]
      simp only [Nat.add_sub_cancel_left]

theorem BytesAt.byte {bs : List (BitVec 8)} {b : BitVec 8} {i : Nat} (h : BytesAt m a bs)
    (hi : bs[i]? = some b) : m (a + BitVec.ofNat 64 i) = b := by
  obtain ⟨hlt, rfl⟩ := List.getElem?_eq_some_iff.mp hi
  exact h i hlt

theorem BytesAt.load64 (h : BytesAt m a (wordBytes v)) : load64 m a = v := by
  have h₀ : m a = ByteMemory.byte v 0 := by simpa using h.byte (i := 0) rfl
  rw [ByteMemory.load64, h₀]
  exact (congrArg₂ _ (congrArg₂ _ (congrArg₂ _ (congrArg₂ _ (congrArg₂ _ (congrArg₂ _ (congrArg₂ _
    (h.byte (i := 7) rfl) (h.byte (i := 6) rfl)) (h.byte (i := 5) rfl)) (h.byte (i := 4) rfl))
    (h.byte (i := 3) rfl)) (h.byte (i := 2) rfl)) (h.byte (i := 1) rfl)) rfl).trans (bytes_append v)

theorem BytesAt.load32 {w : BitVec 32} (h : BytesAt m a (word32Bytes w)) : load32 m a = w := by
  have h₀ : m a = w.extractLsb' 0 8 := by simpa using h.byte (i := 0) rfl
  rw [ByteMemory.load32, h₀]
  exact (congrArg₂ _ (congrArg₂ _ (congrArg₂ _ (h.byte (i := 3) rfl) (h.byte (i := 2) rfl))
    (h.byte (i := 1) rfl)) rfl).trans (bytes32_append w)

theorem zeroBlock_of_notMem (h : x ∉ block a n) : zeroBlock m a n x = m x := if_neg h

/-! ## Records -/

/-- Write the fields of a record at `a`, each a word at its offset. -/
def writeFields (m : Memory) (a : Word) : List (Nat × Word) → Memory
  | [] => m
  | f :: fs => writeFields (store64 m (a + BitVec.ofNat 64 f.1) f.2) a fs

/-- The offsets of the fields of a record of `n` bytes: in order, eight bytes apart, and
each field within the record. -/
structure OffsetsWithin (n : Nat) (offs : List Nat) : Prop where
  ordered : offs.Pairwise fun o o' => o + 8 ≤ o'
  within : ∀ o ∈ offs, o + 8 ≤ n
  size : n ≤ 2 ^ 64

theorem OffsetsWithin.tail {o : Nat} {offs : List Nat} (h : OffsetsWithin n (o :: offs)) :
    OffsetsWithin n offs where
  ordered := (List.pairwise_cons.mp h.ordered).2
  within o' ho' := h.within o' (List.mem_cons_of_mem _ ho')
  size := h.size

/-- Writing a record changes nothing outside it. -/
theorem writeFields_of_notMem {fs : List (Nat × Word)} (h : OffsetsWithin n (fs.map Prod.fst))
    (hx : x ∉ block a n) : writeFields m a fs x = m x := by
  induction fs generalizing m with
  | nil => rfl
  | cons f fs ih =>
      rw [writeFields, ih h.tail]
      exact store64_of_notMem fun hmem =>
        hx (block_subset (h.within f.1 List.mem_cons_self) h.size hmem)

/-- Later fields do not change the word at an earlier offset. -/
theorem load64_writeFields_of_lt {fs : List (Nat × Word)} (h : OffsetsWithin n (fs.map Prod.fst))
    (hoff : ∀ f ∈ fs, off + 8 ≤ f.1) :
    load64 (writeFields m a fs) (a + BitVec.ofNat 64 off) =
      load64 m (a + BitVec.ofNat 64 off) := by
  induction fs generalizing m with
  | nil => rfl
  | cons f fs ih =>
      rw [writeFields, ih h.tail fun g hg => hoff g (List.mem_cons_of_mem _ hg)]
      exact load64_store64_of_disjoint (block_disjoint_of_offsets (hoff f List.mem_cons_self)
        ((h.within f.1 List.mem_cons_self).trans h.size))

/-- A record gives back what was written. -/
theorem load64_writeFields {fs : List (Nat × Word)} (h : OffsetsWithin n (fs.map Prod.fst))
    {f : Nat × Word} (hf : f ∈ fs) :
    load64 (writeFields m a fs) (a + BitVec.ofNat 64 f.1) = f.2 := by
  induction fs generalizing m with
  | nil => cases hf
  | cons g fs ih =>
      rw [writeFields]
      rcases List.mem_cons.mp hf with rfl | hf
      · have hlt : ∀ g ∈ fs, f.1 + 8 ≤ g.1 := fun g hg =>
          (List.pairwise_cons.mp h.ordered).1 g.1 (List.mem_map_of_mem hg)
        rw [load64_writeFields_of_lt h.tail hlt, load64_store64]
      · exact ih h.tail hf

/-! ## Register files -/

variable {Reg : Type} {layout : List (Nat × Reg)} {regs : Reg → Word}

/-- The fields of a register file: each register at its offset. -/
def regFields (layout : List (Nat × Reg)) (regs : Reg → Word) : List (Nat × Word) :=
  layout.map fun f => (f.1, regs f.2)

/-- The register file at `a` holds these registers. -/
def Holds (m : Memory) (a : Word) (layout : List (Nat × Reg)) (regs : Reg → Word) : Prop :=
  ∀ f ∈ layout, load64 m (a + BitVec.ofNat 64 f.1) = regs f.2

theorem map_fst_regFields : (regFields layout regs).map Prod.fst = layout.map Prod.fst := by
  simp [regFields, Function.comp_def]

/-- Saving a register file puts it there. -/
theorem holds_writeFields (h : OffsetsWithin n (layout.map Prod.fst)) :
    Holds (writeFields m a (regFields layout regs)) a layout regs := by
  intro f hf
  have hmem : (f.1, regs f.2) ∈ regFields layout regs := List.mem_map.mpr ⟨f, hf, rfl⟩
  have hoffs : OffsetsWithin n ((regFields layout regs).map Prod.fst) := by
    rw [map_fst_regFields]
    exact h
  exact load64_writeFields (f := (f.1, regs f.2)) hoffs hmem

theorem saved_of_notMem (h : OffsetsWithin n (layout.map Prod.fst)) (hx : x ∉ block a n) :
    writeFields m a (regFields layout regs) x = m x :=
  writeFields_of_notMem (by rw [map_fst_regFields]; exact h) hx

/-- A register file depends on its own bytes only. -/
theorem Holds.congr (h : OffsetsWithin n (layout.map Prod.fst))
    (hm : ∀ x ∈ block a n, m' x = m x) (hold : Holds m a layout regs) :
    Holds m' a layout regs := by
  intro f hf
  have hwithin := h.within f.1 (List.mem_map_of_mem hf)
  rw [load64_congr fun x hx => hm x (block_subset hwithin h.size hx)]
  exact hold f hf

end ByteMemory
