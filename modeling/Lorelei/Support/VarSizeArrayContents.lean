import Mathlib.Tactic.Abel
import Lorelei.Support.VarSizeArray

/-!
# The contents of arrays

What each operation does to an array with known contents: it ends with the contents that a
list would have, in the array's own buffers, or it has been refused memory (`Owns`).
-/

namespace Lorelei.Support.VarSizeArray

open Storage

variable {T : Type} {traits : ElementTraits T} {N M n : Nat} {a rhs : VarSizeArray}
  {vs ws : List T} {v : T} {m : Memory T} {F : Multiset (Chunk T)} {allowed : Fault → Prop}

/-! ## Buffers -/

/-- The cells of a buffer. -/
def cells (n : Nat) (vs : List T) : List (Option T) :=
  vs.map some ++ List.replicate (n - vs.length) none

/-- The inline buffer without elements. -/
def inlineChunk (a : VarSizeArray) : Chunk T :=
  ⟨a.inlineBegin, false, List.replicate a.inlineCapacity none⟩

/-- The inline buffer of an array that does not use it. -/
def spare (a : VarSizeArray) : Multiset (Chunk T) := if a.isInline then 0 else {a.inlineChunk}

/-- The buffers of an array. -/
def chunks (a : VarSizeArray) (vs : List T) : Multiset (Chunk T) :=
  {⟨a.begin, !a.isInline, cells a.capacity vs⟩} + a.spare

/-- The fields of an array with these contents. -/
structure Fits (traits : ElementTraits T) (N : Nat) (vs : List T) (a : VarSizeArray) : Prop where
  size : a.size = vs.length
  le : vs.length ≤ a.capacity
  capacity_le : a.capacity ≤ traits.maxSize
  inlineCapacity : a.inlineCapacity = N
  inline_le : N ≤ traits.maxSize
  inline : a.isInline = true → a.capacity = N

/-- The array has these contents, and its buffers are the only ones next to `F`. -/
structure Owns (traits : ElementTraits T) (N : Nat) (vs : List T) (F : Multiset (Chunk T))
    (a : VarSizeArray) (m : Memory T) : Prop extends Fits traits N vs a where
  view : m.view = a.chunks vs + F

/-- Every request for more elements than half of the limit may be refused. -/
def MayRefuse (traits : ElementTraits T) (allowed : Fault → Prop) (n : Nat) : Prop :=
  traits.maxSize < 2 * n + 4 → allowed .outOfMemory

theorem MayRefuse.mono (h : MayRefuse traits allowed n) {k : Nat} (hk : k ≤ n) :
    MayRefuse traits allowed k := fun hlt => h (by omega)

theorem cells_front (n : Nat) (vs : List T) :
    cells n vs = [] ++ (vs.map some ++ List.replicate (n - vs.length) none) := rfl

theorem chunks_inline (hbegin : a.begin = a.inlineBegin) (hc : a.capacity = a.inlineCapacity) :
    a.chunks ([] : List T) = {a.inlineChunk} := by
  have hinline : a.isInline = true := decide_eq_true hbegin
  rw [chunks, spare, hinline, if_pos rfl, add_zero, inlineChunk, hbegin, hc]
  rfl

theorem chunks_heap (h : a.begin ≠ a.inlineBegin) (vs : List T) :
    a.chunks vs = {⟨a.begin, true, cells a.capacity vs⟩} + {a.inlineChunk} := by
  have hinline : a.isInline = false := decide_eq_false h
  rw [chunks, spare, hinline, if_neg Bool.false_ne_true]
  rfl

theorem cells_nil (n : Nat) : cells n ([] : List T) = List.replicate n none := rfl

theorem Owns.buffer (h : Owns traits N vs F a m) :
    m.view = {⟨a.begin, !a.isInline, cells a.capacity vs⟩} + (a.spare + F) := by
  rw [h.view, chunks, add_assoc]

/-- The elements of an array are replaced in its buffer. -/
theorem Owns.of_buffer (h : Fits traits N vs a)
    (hv : m.view = {⟨a.begin, !a.isInline, cells a.capacity ws⟩} + (a.spare + F))
    (hle : ws.length ≤ a.capacity) (hn : n = ws.length) :
    Owns traits N ws F { a with size := n } m where
  size := hn
  le := hle
  capacity_le := h.capacity_le
  inlineCapacity := h.inlineCapacity
  inline_le := h.inline_le
  inline := h.inline
  view := hv.trans (add_assoc _ _ _).symm

theorem ends_destroyRange (h : Owns traits N (vs ++ ws) F a m) {first last : Nat}
    (hfirst : first = vs.length) (hlast : last = (vs ++ ws).length) :
    Ends allowed (a.destroyRange first last) m fun _ m' =>
      m'.view = {⟨a.begin, !a.isInline, cells a.capacity vs⟩} + (a.spare + F) := by
  have hv := h.buffer
  have hle := h.le
  rw [List.length_append] at hle hlast
  rw [cells, List.map_append, List.append_assoc] at hv
  have hcount : last - first = ws.length := by
    omega
  rw [destroyRange, hcount]
  refine (ends_destroyCells hv (by simp [hfirst])).mono fun _ m' hv' => ?_
  rw [hv', cells, ← List.append_assoc, List.append_assoc, List.replicate_append_replicate,
    List.length_append]
  congr 5
  omega

/-- An array without elements gives up its heap buffer. -/
theorem ends_deallocate (h : Fits traits N vs a) {G : Multiset (Chunk T)}
    (hv : m.view = {⟨a.begin, !a.isInline, List.replicate a.capacity none⟩} + (a.spare + G)) :
    Ends allowed a.deallocate m fun _ m' => m'.view = {a.inlineChunk} + G := by
  rw [deallocate]
  cases hinline : a.isInline with
  | true =>
      rw [if_pos rfl]
      refine ends_pure ?_
      have hbegin : a.begin = a.inlineBegin := of_decide_eq_true hinline
      rw [hv, spare, hinline, if_pos rfl, zero_add, h.inline hinline, hbegin, inlineChunk,
        h.inlineCapacity]
      rfl
  | false =>
      rw [if_neg Bool.false_ne_true]
      rw [hinline, spare, hinline, if_neg Bool.false_ne_true] at hv
      exact ends_release hv

/-! ## Growing -/

theorem wrap_of_lt (h : n < 2 ^ 64) : wrap n = n := Nat.mod_eq_of_lt h

theorem le_computeNewCapacity (a : VarSizeArray) (n : Nat) : n ≤ a.computeNewCapacity n := by
  rw [computeNewCapacity]
  split_ifs <;> omega

theorem computeNewCapacity_le (h : a.capacity ≤ n) : a.computeNewCapacity n ≤ 2 * n + 4 := by
  have hwrap : wrap (a.capacity * 2) ≤ a.capacity * 2 := Nat.mod_le _ _
  rw [computeNewCapacity, kMinHeapCapacity]
  split_ifs <;> omega

/-- The inline buffer is always there. -/
theorem exists_inline (a : VarSizeArray) (vs : List T) :
    ∃ q ∈ a.chunks vs, q.block = a.inlineBegin := by
  rw [chunks, spare]
  cases hinline : a.isInline with
  | true =>
      refine ⟨_, Multiset.mem_add.mpr (.inl (Multiset.mem_singleton_self _)), ?_⟩
      exact of_decide_eq_true hinline
  | false =>
      rw [if_neg Bool.false_ne_true]
      exact ⟨_, Multiset.mem_add.mpr (.inr (Multiset.mem_singleton_self _)), rfl⟩

/-- A chunk next to an array is not its inline buffer. -/
theorem ne_inlineBegin {p : Chunk T} (hv : m.view = {p} + (a.chunks vs + F)) :
    p.block ≠ a.inlineBegin := by
  obtain ⟨q, hq, heq⟩ := exists_inline a vs
  exact heq ▸ ne_of_view hv (Multiset.mem_add.mpr (.inl hq))

/-- The array with a heap buffer. -/
theorem Owns.of_heap (h : Fits traits N vs a) {b c : Nat} (hb : b ≠ a.inlineBegin)
    (hle : ws.length ≤ c) (hc : c ≤ traits.maxSize)
    (hv : m.view = {a.inlineChunk} + ({⟨b, true, cells c ws⟩} + F)) (hn : n = ws.length) :
    Owns traits N ws F { a with begin := b, size := n, capacity := c } m := by
  have hinline : isInline { a with begin := b, size := n, capacity := c } = false :=
    decide_eq_false hb
  refine ⟨⟨hn, hle, hc, h.inlineCapacity, h.inline_le, fun h => ?_⟩, ?_⟩
  · rw [hinline] at h
    exact nomatch h
  · rw [hv, chunks_heap hb, add_left_comm, add_assoc]
    rfl

theorem ends_relocateTo (h : Fits traits N vs a) {b : Nat} {tail : List (Option T)}
    (hv : m.view = {⟨b, true, List.replicate vs.length none ++ tail⟩} + (a.chunks vs + F)) :
    Ends allowed (a.relocateTo traits b) m fun _ m' => m'.view =
      {⟨a.begin, !a.isInline, List.replicate a.capacity none⟩} +
        (a.spare + ({⟨b, true, vs.map some ++ tail⟩} + F)) := by
  rw [chunks, add_assoc, add_left_comm] at hv
  rw [cells_front, ← List.nil_append (List.replicate _ _ ++ tail)] at hv
  rw [relocateTo, h.size]
  refine (ends_relocateCells hv rfl rfl).mono fun _ m' hv' => ?_
  rw [hv', List.nil_append, List.nil_append, List.replicate_append_replicate,
    Nat.add_sub_cancel' h.le, add_left_comm {_} a.spare]

/-- A chunk next to an array is not its buffer. -/
theorem ne_begin {p : Chunk T} (hv : m.view = {p} + (a.chunks vs + F)) : p.block ≠ a.begin :=
  ne_of_view hv (Multiset.mem_add.mpr (.inl (Multiset.mem_add.mpr
    (.inl (Multiset.mem_singleton_self _)))))

theorem ends_grow (h : Owns traits N vs F a m) (hlt : a.capacity < n)
    (hrefuse : traits.maxSize < a.computeNewCapacity n → allowed .outOfMemory) :
    Ends allowed (a.grow traits n) m fun a' m' => Owns traits N vs F a' m' ∧
      ∃ b, b ≠ a.begin ∧ b ≠ a.inlineBegin ∧
        a' = { a with begin := b, capacity := a.computeNewCapacity n } := by
  have hle := le_computeNewCapacity a n
  have hvs := h.le
  refine (ends_newBlock hrefuse).bind ?_
  rintro b m' ⟨hv, hmax⟩
  rw [h.view] at hv
  have hcells : List.replicate (a.computeNewCapacity n) (none : Option T) =
      List.replicate vs.length none ++
        List.replicate (a.computeNewCapacity n - vs.length) none := by
    rw [List.replicate_append_replicate, Nat.add_sub_cancel' (by omega)]
  have hold := ne_begin hv
  have hb := ne_inlineBegin hv
  rw [hcells] at hv
  refine (ends_relocateTo h.toFits hv).bind fun _ m' hv' => ?_
  refine (ends_deallocate h.toFits hv').bind fun _ m'' hv'' => ?_
  refine ends_pure ⟨?_, b, hold, hb, rfl⟩
  exact Owns.of_heap h.toFits hb (by omega) hmax hv'' h.size

theorem ends_reserve (h : Owns traits N vs F a m) (hrefuse : MayRefuse traits allowed n) :
    Ends allowed (a.reserve traits n) m fun a' m' =>
      Owns traits N vs F a' m' ∧ n ≤ a'.capacity := by
  rw [reserve]
  split
  next hlt =>
    refine (ends_grow h hlt fun hmax => hrefuse ?_).mono ?_
    · exact hmax.trans_le (computeNewCapacity_le hlt.le)
    · rintro _ m' ⟨h', b, -, -, rfl⟩
      exact ⟨h', le_computeNewCapacity a n⟩
  next hle => exact ends_pure ⟨h, Nat.not_lt.mp hle⟩

/-! ## Adding elements -/

/-- The argument is this value as long as `F` is there. -/
def Reads (F : Multiset (Chunk T)) (arg : Arg T) (v : T) : Prop :=
  ∀ m G, m.view = G + F → arg.read m = .ok (v, m)

theorem reads_value (F : Multiset (Chunk T)) (v : T) : Reads F (.value v) v := fun _ _ _ => rfl

theorem Reads.ends {arg : Arg T} (hread : Reads F arg v) {G : Multiset (Chunk T)}
    (hv : m.view = G + F) : Ends allowed arg.read m fun w m' => w = v ∧ m' = m := by
  rw [Ends, hread m G hv]
  exact ⟨rfl, rfl⟩

/-- The cell behind the elements. -/
theorem cells_eq (h : vs.length < n) :
    cells n vs = vs.map some ++ none :: List.replicate (n - (vs.length + 1)) none := by
  rw [cells, ← List.replicate_succ]
  congr 2
  omega

theorem cells_concat (n : Nat) (vs : List T) (v : T) :
    cells n (vs ++ [v]) = vs.map some ++ some v :: List.replicate (n - (vs.length + 1)) none := by
  rw [cells, List.map_append, List.append_assoc, List.length_append]
  rfl

theorem ends_pushBack (h : Owns traits N vs F a m) {arg : Arg T} (hread : Reads F arg v)
    (hrefuse : MayRefuse traits allowed (vs.length + 1)) :
    Ends allowed (a.pushBack traits arg) m (Owns traits N (vs ++ [v]) F) := by
  have hle := h.le
  have hmax := h.capacity_le
  have hlimit := traits.maxSize_lt
  rw [pushBack, emplaceBack]
  split
  next hfull =>
    rw [h.size] at hfull
    rw [growAndEmplaceBack, h.size, wrap_of_lt (by omega)]
    have hnew := le_computeNewCapacity a (vs.length + 1)
    refine (ends_newBlock fun hmax => hrefuse ?_).bind ?_
    · exact hmax.trans_le (computeNewCapacity_le (by omega))
    rintro b m' ⟨hv, hmax⟩
    rw [h.view] at hv
    have hb := ne_inlineBegin hv
    have hcells : List.replicate (a.computeNewCapacity (vs.length + 1)) (none : Option T) =
        List.replicate vs.length none ++
          none :: List.replicate (a.computeNewCapacity (vs.length + 1) - (vs.length + 1)) none := by
      rw [← List.replicate_succ, List.replicate_append_replicate]
      congr 1
      omega
    rw [hcells] at hv
    refine (hread.ends (hv.trans (add_assoc _ _ _).symm)).bind ?_
    rintro _ _ ⟨rfl, rfl⟩
    have hi : vs.length = (List.replicate vs.length (none : Option T)).length := by
      rw [List.length_replicate]
    refine (ends_construct hv (get_front _ hi)).bind fun _ m' hv' => ?_
    rw [set_front _ _ hi] at hv'
    refine (ends_relocateTo h.toFits hv').bind fun _ m'' hv'' => ?_
    rw [← cells_concat] at hv''
    refine (ends_deallocate h.toFits hv'').bind fun _ m₃ hv₃ => ?_
    exact ends_pure (Owns.of_heap h.toFits hb (by simpa using hnew) hmax hv₃ (by simp))
  next hroom =>
    rw [h.size] at hroom ⊢
    have hlt : vs.length < a.capacity := by
      omega
    refine (hread.ends h.view).bind ?_
    rintro _ _ ⟨rfl, rfl⟩
    have hv := h.buffer
    rw [cells_eq hlt] at hv
    have hi : vs.length = (vs.map some).length := (List.length_map _).symm
    refine (ends_construct hv (get_front _ hi)).bind fun _ m' hv' => ?_
    rw [set_front _ _ hi, ← cells_concat] at hv'
    refine ends_pure (Owns.of_buffer h.toFits hv' ?_ ?_)
    · simpa using Nat.succ_le_of_lt hlt
    · simp

theorem ends_append (h : Owns traits N vs F a m) {args : List (Arg T)}
    (hread : List.Forall₂ (Reads F) args ws)
    (hrefuse : MayRefuse traits allowed (vs.length + ws.length)) :
    Ends allowed (a.append traits args) m (Owns traits N (vs ++ ws) F) := by
  induction hread generalizing vs a m with
  | nil =>
      rw [List.append_nil]
      exact ends_pure h
  | @cons arg v args ws harg _ ih =>
      rw [List.length_cons] at hrefuse
      refine (ends_pushBack h harg (hrefuse.mono (by omega))).bind fun a' m' h' => ?_
      rw [List.append_cons]
      refine ih h' ?_
      rw [List.length_append, List.length_singleton, Nat.add_assoc, Nat.add_comm 1]
      exact hrefuse

/-- The same array with elements in another order. -/
theorem ends_rotate {us : List T} (h : Owns traits N (us ++ (vs ++ ws)) F a m)
    {first middle last : Nat} (hfirst : first = us.length)
    (hmiddle : middle = us.length + vs.length)
    (hlast : last = us.length + vs.length + ws.length) :
    Ends allowed (rotateCells a.begin first middle last) m fun _ m' =>
      Owns traits N (us ++ (ws ++ vs)) F a m' := by
  have hlength : (us ++ (ws ++ vs)).length = (us ++ (vs ++ ws)).length := by
    simp only [List.length_append]
    omega
  have hv := h.buffer
  rw [cells, List.map_append, List.append_assoc] at hv
  refine (ends_rotateCells hv (by simp [hfirst]) (by omega) (by omega)).mono fun _ m' hv' => ?_
  rw [← List.append_assoc, ← List.map_append, ← hlength, ← cells] at hv'
  exact Owns.of_buffer (n := a.size) h.toFits hv' (hlength.trans_le h.le)
    (h.size.trans hlength.symm)

/-- A list with another one put in. -/
def splice (index : Nat) (new vs : List T) : List T := vs.take index ++ (new ++ vs.drop index)

/-- New elements at the end are rotated into place. -/
theorem ends_rotate_new (h : Owns traits N (vs ++ ws) F a m) {index middle last : Nat}
    (hindex : index ≤ vs.length) (hmiddle : middle = vs.length)
    (hlast : last = vs.length + ws.length) :
    Ends allowed (rotateCells a.begin index middle last) m fun _ m' =>
      Owns traits N (splice index ws vs) F a m' := by
  have hsplit : vs ++ ws = vs.take index ++ (vs.drop index ++ ws) := by
    rw [← List.append_assoc, List.take_append_drop]
  rw [hsplit] at h
  refine ends_rotate h ?_ ?_ ?_
  · rw [List.length_take_of_le hindex]
  · rw [List.length_take_of_le hindex, List.length_drop]
    omega
  · rw [List.length_take_of_le hindex, List.length_drop]
    omega

theorem ends_insert (h : Owns traits N vs F a m) {arg : Arg T} (hread : Reads F arg v)
    {index : Nat} (hindex : index ≤ vs.length)
    (hrefuse : MayRefuse traits allowed (vs.length + 1)) :
    Ends allowed (a.insert traits index arg) m fun r m' =>
      Owns traits N (splice index [v] vs) F r.1 m' ∧ r.2 = index := by
  refine (ends_pushBack h hread hrefuse).bind fun a' m' h' => ?_
  have hsize := h'.size
  rw [List.length_append, List.length_singleton] at hsize
  refine (ends_rotate_new h' hindex (by omega) hsize).bind fun _ m'' h'' => ?_
  exact ends_pure ⟨h'', rfl⟩

theorem ends_insertRange (h : Owns traits N vs F a m) {args : List (Arg T)}
    (hread : List.Forall₂ (Reads F) args ws) {index : Nat} (hindex : index ≤ vs.length)
    (hrefuse : MayRefuse traits allowed (vs.length + ws.length)) :
    Ends allowed (a.insertRange traits index args) m fun r m' =>
      Owns traits N (splice index ws vs) F r.1 m' ∧ r.2 = index := by
  refine (ends_append h hread hrefuse).bind fun a' m' h' => ?_
  have hsize := h'.size
  rw [List.length_append] at hsize
  refine (ends_rotate_new h' hindex h.size hsize).bind fun _ m'' h'' => ?_
  exact ends_pure ⟨h'', rfl⟩

/-- Cells behind the elements. -/
theorem cells_room {k : Nat} (h : vs.length + k ≤ n) :
    cells n vs = vs.map some ++
      (List.replicate k none ++ List.replicate (n - (vs.length + k)) none) := by
  rw [cells, List.replicate_append_replicate]
  congr 2
  omega

theorem cells_nil_room {k : Nat} (h : k ≤ n) : cells n ([] : List T) =
    [] ++ (List.replicate k none ++ List.replicate (n - k) none) := by
  rw [cells_nil, List.nil_append, List.replicate_append_replicate, Nat.add_sub_cancel' h]

theorem cells_append (n : Nat) (vs ws : List T) : cells n (vs ++ ws) =
    vs.map some ++ (ws.map some ++ List.replicate (n - (vs.length + ws.length)) none) := by
  rw [cells, List.map_append, List.append_assoc, List.length_append]

theorem ends_insertCopies (h : Owns traits N vs F a m) {arg : Arg T} (hread : Reads F arg v)
    {index count : Nat} (hindex : index ≤ vs.length)
    (hcount : count ≠ 0 → vs.length + count < 2 ^ 64)
    (hrefuse : MayRefuse traits allowed (vs.length + count)) :
    Ends allowed (a.insertCopies traits index count arg) m fun r m' =>
      Owns traits N (splice index (List.replicate count v) vs) F r.1 m' ∧ r.2 = index := by
  rw [insertCopies]
  split
  next hzero =>
    refine ends_pure ⟨?_, rfl⟩
    rw [hzero, splice, List.replicate_zero, List.nil_append, List.take_append_drop]
    exact h
  next hne =>
    refine (hread.ends h.view).bind ?_
    rintro v _ ⟨rfl, rfl⟩
    rw [h.size, wrap_of_lt (hcount hne)]
    refine (ends_reserve h hrefuse).bind ?_
    rintro a' m' ⟨h', hroom⟩
    have hv := h'.buffer
    rw [cells_room hroom] at hv
    rw [h'.size]
    refine (ends_fillCells hv (List.length_map _).symm).bind fun _ m'' hv' => ?_
    have hlength : (vs ++ List.replicate count v).length = vs.length + count := by
      rw [List.length_append, List.length_replicate]
    have hcells := cells_append a'.capacity vs (List.replicate count v)
    rw [List.length_replicate] at hcells
    rw [← hcells] at hv'
    have h'' := Owns.of_buffer h'.toFits hv' (hlength.trans_le hroom) hlength.symm
    refine (ends_rotate_new h'' hindex ?_ ?_).bind fun _ m₃ h₃ => ?_
    · exact Nat.add_sub_cancel ..
    · rw [List.length_replicate]
    · exact ends_pure ⟨h₃, rfl⟩

/-! ## Removing elements -/

theorem ends_popBack (h : Owns traits N (vs ++ [v]) F a m) :
    Ends allowed a.popBack m (Owns traits N vs F) := by
  have hv := h.buffer
  have hle := h.le
  have hsize := h.size
  rw [List.length_append, List.length_singleton] at hle hsize
  have hi : a.size - 1 = (vs.map some).length := by
    rw [List.length_map, hsize, Nat.add_sub_cancel]
  rw [cells_concat] at hv
  refine (ends_destroy hv (get_front _ hi)).bind fun _ m' hv' => ?_
  rw [set_front _ _ hi, ← cells_eq hle] at hv'
  exact ends_pure (Owns.of_buffer h.toFits hv' (by omega) (by omega))

theorem ends_clear (h : Owns traits N vs F a m) :
    Ends allowed (a.clear : Exec T VarSizeArray) m (Owns traits N [] F) := by
  have hnil : Owns traits N ([] ++ vs) F a m := h
  refine (ends_destroyRange hnil rfl h.size).bind fun _ m' hv => ?_
  exact ends_pure (Owns.of_buffer h.toFits hv (Nat.zero_le _) rfl)

/-- Elements behind a gap take its place; what is left of the gap is destroyed. -/
theorem ends_shift_elements {us gap : List T} (h : Owns traits N (us ++ (gap ++ vs)) F a m)
    (hgap : 0 < gap.length) {first last dest : Nat} (hdest : dest = us.length)
    (hfirst : first = us.length + gap.length)
    (hlast : last = us.length + gap.length + vs.length) :
    Ends allowed (shiftCells traits.residue a.begin first last dest) m fun _ m' =>
      ∃ left : List T, left.length = gap.length ∧
        Owns traits N (us ++ vs ++ left) F a m' := by
  have hv := h.buffer
  rw [cells_append, List.map_append, List.append_assoc] at hv
  refine (ends_shiftCells hv (by simp [hdest]) hgap (by omega) (by omega)).mono fun _ m' => ?_
  rintro ⟨left, hleft, hv'⟩
  have hlength : (us ++ vs ++ left).length = (us ++ (gap ++ vs)).length := by
    simp only [List.length_append]
    omega
  refine ⟨left, hleft, ?_⟩
  have hcells : cells a.capacity (us ++ vs ++ left) = us.map some ++ (vs.map some ++
      (left.map some ++ List.replicate (a.capacity - (us.length + (gap ++ vs).length)) none)) := by
    rw [List.append_assoc, cells_append, List.map_append, List.append_assoc]
    congr 4
    simp only [List.length_append]
    omega
  rw [← hcells] at hv'
  exact Owns.of_buffer (n := a.size) h.toFits hv' (hlength.trans_le h.le)
    (h.size.trans hlength.symm)

theorem ends_eraseRange (h : Owns traits N vs F a m) {first last : Nat} (hle : first ≤ last)
    (hlast : last ≤ vs.length) :
    Ends allowed (a.eraseRange traits first last) m fun r m' =>
      Owns traits N (vs.take first ++ vs.drop last) F r.1 m' ∧ r.2 = first := by
  rw [eraseRange]
  split
  next heq =>
    refine ends_pure ⟨?_, rfl⟩
    rw [heq, List.take_append_drop]
    exact h
  next hne =>
    obtain ⟨us, gap, ws, rfl, hus, hgap⟩ : ∃ us gap ws, vs = us ++ (gap ++ ws) ∧
        us.length = first ∧ gap.length = last - first := by
      refine ⟨vs.take first, (vs.drop first).take (last - first), vs.drop last, ?_, ?_, ?_⟩
      · have hdrop : vs.drop last = (vs.drop first).drop (last - first) := by
          rw [List.drop_drop]
          congr 1
          omega
        rw [hdrop, List.take_append_drop, List.take_append_drop]
      · rw [List.length_take]
        omega
      · rw [List.length_take, List.length_drop]
        omega
    have hsize := h.size
    simp only [List.length_append] at hsize hlast
    refine (ends_shift_elements h (by omega) hus.symm (by omega) (by omega)).bind fun _ m' => ?_
    rintro ⟨left, hleft, h'⟩
    have htake : (us ++ (gap ++ ws)).take first = us := by
      rw [← hus, List.take_left]
    have hdrop : (us ++ (gap ++ ws)).drop last = ws := by
      rw [← List.append_assoc]
      exact List.drop_left' (by rw [List.length_append]; omega)
    rw [htake, hdrop]
    refine (ends_destroyRange h' ?_ h'.size).bind fun _ m'' hv => ?_
    · rw [List.length_append]
      omega
    have hle' := h.le
    simp only [List.length_append] at hle'
    refine ends_pure ⟨Owns.of_buffer h.toFits hv ?_ ?_, rfl⟩
    · rw [List.length_append]
      omega
    · rw [List.length_append]
      omega

theorem ends_erase (h : Owns traits N vs F a m) {index : Nat} (hlt : index < vs.length) :
    Ends allowed (a.erase traits index) m fun r m' =>
      Owns traits N (vs.take index ++ vs.drop (index + 1)) F r.1 m' ∧ r.2 = index := by
  have hsplit : vs = vs.take index ++ ([vs[index]] ++ vs.drop (index + 1)) := by
    rw [List.singleton_append, ← List.drop_eq_getElem_cons hlt, List.take_append_drop]
  have hus : (vs.take index).length = index := List.length_take_of_le hlt.le
  have hws : (vs.drop (index + 1)).length = vs.length - (index + 1) := List.length_drop
  have hsize := h.size
  rw [hsplit] at h
  refine (ends_shift_elements h Nat.one_pos hus.symm ?_ ?_).bind fun _ m' => ?_
  · rw [hus]
    rfl
  · rw [hus, hws, List.length_singleton]
    omega
  rintro ⟨left, hleft, h'⟩
  obtain ⟨x, rfl⟩ := List.length_eq_one_iff.mp hleft
  refine (ends_popBack h').bind fun a' m'' h'' => ?_
  exact ends_pure ⟨h'', rfl⟩

/-- A list cut or filled up to a length. -/
def resized (n : Nat) (v : T) (vs : List T) : List T :=
  vs.take n ++ List.replicate (n - vs.length) v

theorem ends_resizeWith (h : Owns traits N vs F a m) {arg : Arg T} (hread : Reads F arg v)
    (hrefuse : MayRefuse traits allowed n) :
    Ends allowed (a.resizeWith traits n arg) m (Owns traits N (resized n v vs) F) := by
  rw [resizeWith, h.size, resized]
  split
  next hlt =>
    have hsplit : vs = vs.take n ++ vs.drop n := (List.take_append_drop n vs).symm
    have htake : (vs.take n).length = n := List.length_take_of_le hlt.le
    have hle := h.le
    rw [Nat.sub_eq_zero_of_le hlt.le, List.replicate_zero, List.append_nil]
    refine (ends_destroyRange (hsplit ▸ h) htake.symm (by rw [← hsplit])).bind fun _ m' hv => ?_
    exact ends_pure (Owns.of_buffer h.toFits hv (by omega) htake.symm)
  next hge =>
    rw [List.take_of_length_le (Nat.not_lt.mp hge)]
    split
    next hgt =>
      refine (ends_reserve h hrefuse).bind ?_
      rintro a' m' ⟨h', hroom⟩
      have hv := h'.buffer
      have hk : vs.length + (n - vs.length) = n := Nat.add_sub_cancel' hgt.le
      rw [cells_room (hk.trans_le hroom)] at hv
      rw [h'.size]
      refine (ends_fill (v := v) (fun i m front rest hi hv => ?_) hv (List.length_map _).symm).bind
        fun _ m'' hv' => ?_
      · refine (hread.ends (hv.trans (add_assoc _ _ _).symm)).bind ?_
        rintro v _ ⟨rfl, rfl⟩
        refine (ends_construct hv (get_front _ hi)).mono fun _ m' hv' => ?_
        rwa [set_front _ _ hi] at hv'
      have hcells := cells_append a'.capacity vs (List.replicate (n - vs.length) v)
      rw [List.length_replicate] at hcells
      rw [← hcells] at hv'
      have hlength : (vs ++ List.replicate (n - vs.length) v).length = n := by
        rw [List.length_append, List.length_replicate, hk]
      exact ends_pure (Owns.of_buffer h'.toFits hv' (hlength.trans_le hroom) hlength.symm)
    next hle =>
      have hn : n = vs.length := by
        omega
      rw [hn, Nat.sub_self, List.replicate_zero, List.append_nil, ← h.size]
      exact ends_pure h

/-! ## Construction and destruction -/

theorem ends_create (hv : m.view = F) (hrefuse : MayRefuse traits allowed N) :
    Ends allowed (create traits N) m (Owns traits N [] F) := by
  refine (ends_newBlock fun hmax => hrefuse (by omega)).bind ?_
  rintro b m' ⟨hv', hmax⟩
  refine ends_pure ⟨⟨rfl, Nat.zero_le _, hmax, rfl, hmax, fun _ => rfl⟩, ?_⟩
  rw [hv', hv, chunks_inline rfl rfl]
  rfl

theorem ends_destruct (h : Owns traits N vs F a m) :
    Ends allowed a.destruct m fun _ m' => m'.view = F := by
  have hnil : Owns traits N ([] ++ vs) F a m := h
  refine (ends_destroyRange hnil rfl h.size).bind fun _ m' hv => ?_
  refine (ends_deallocate h.toFits hv).bind fun _ m'' hv' => ?_
  exact ends_release hv'

theorem ends_resetToInline (h : Owns traits N vs F a m) :
    Ends allowed (a.resetToInline : Exec T VarSizeArray) m fun a' m' =>
      Owns traits N [] F a' m' ∧ a' = ⟨a.inlineBegin, 0, N, a.inlineBegin, N⟩ := by
  have hnil : Owns traits N ([] ++ vs) F a m := h
  refine (ends_destroyRange hnil rfl h.size).bind fun _ m' hv => ?_
  refine (ends_deallocate h.toFits hv).bind fun _ m'' hv' => ?_
  rw [h.inlineCapacity]
  refine ends_pure ⟨⟨⟨rfl, Nat.zero_le _, h.inline_le, rfl, h.inline_le, fun _ => rfl⟩, ?_⟩, rfl⟩
  rw [hv', chunks_inline rfl rfl, inlineChunk, inlineChunk, h.inlineCapacity]

theorem ends_assignList (h : Owns traits N vs F a m) {args : List (Arg T)}
    (hread : List.Forall₂ (Reads F) args ws) (hrefuse : MayRefuse traits allowed ws.length) :
    Ends allowed (a.assignList traits args) m (Owns traits N ws F) := by
  refine (ends_clear h).bind fun a' m' h' => ?_
  refine ends_append h' hread ?_
  rwa [List.length_nil, Nat.zero_add]

theorem ends_createFrom (hv : m.view = F) {args : List (Arg T)}
    (hread : List.Forall₂ (Reads F) args ws)
    (hrefuse : MayRefuse traits allowed (max N ws.length)) :
    Ends allowed (createFrom traits N args) m (Owns traits N ws F) := by
  refine (ends_create hv (hrefuse.mono (Nat.le_max_left ..))).bind fun a' m' h' => ?_
  refine ends_append h' hread ?_
  rw [List.length_nil, Nat.zero_add]
  exact hrefuse.mono (Nat.le_max_right ..)

/-! ## Two arrays -/

/-- Both arrays have these contents, and their buffers are the only ones next to `F`. -/
structure Both (traits : ElementTraits T) (N : Nat) (vs : List T) (M : Nat) (ws : List T)
    (F : Multiset (Chunk T)) (a rhs : VarSizeArray) (m : Memory T) : Prop where
  left : Fits traits N vs a
  right : Fits traits M ws rhs
  view : m.view = a.chunks vs + (rhs.chunks ws + F)

variable {a' rhs' : VarSizeArray} {m' : Memory T}

theorem Both.owns (h : Both traits N vs M ws F a rhs m) :
    Owns traits N vs (rhs.chunks ws + F) a m := ⟨h.left, h.view⟩

theorem Both.symm (h : Both traits N vs M ws F a rhs m) : Both traits M ws N vs F rhs a m :=
  ⟨h.right, h.left, h.view.trans (add_left_comm _ _ _)⟩

theorem Owns.both (h : Owns traits N vs (rhs.chunks ws + F) a m) (hr : Fits traits M ws rhs) :
    Both traits N vs M ws F a rhs m := ⟨h.toFits, hr, h.view⟩

theorem Both.buffers (h : Both traits N vs M ws F a rhs m) : m.view =
    {⟨a.begin, !a.isInline, cells a.capacity vs⟩} +
      ({⟨rhs.begin, !rhs.isInline, cells rhs.capacity ws⟩} + (a.spare + (rhs.spare + F))) := by
  rw [h.view, chunks, chunks, add_assoc, add_assoc, add_left_comm a.spare]

/-- The elements of both arrays are replaced in their buffers. -/
theorem Both.of_buffers {vs' ws' : List T} (ha : Fits traits N vs a) (hr : Fits traits M ws rhs)
    (hv : m.view = {⟨a.begin, !a.isInline, cells a.capacity vs'⟩} +
      ({⟨rhs.begin, !rhs.isInline, cells rhs.capacity ws'⟩} + (a.spare + (rhs.spare + F))))
    {n k : Nat} (hle : vs'.length ≤ a.capacity) (hn : n = vs'.length)
    (hle' : ws'.length ≤ rhs.capacity) (hk : k = ws'.length) :
    Both traits N vs' M ws' F { a with size := n } { rhs with size := k } m where
  left := ⟨hn, hle, ha.capacity_le, ha.inlineCapacity, ha.inline_le, ha.inline⟩
  right := ⟨hk, hle', hr.capacity_le, hr.inlineCapacity, hr.inline_le, hr.inline⟩
  view := by
    rw [hv, chunks, chunks, add_assoc, add_assoc]
    exact congrArg _ (add_left_comm _ _ _)

theorem ends_copyAssign (h : Both traits N vs M ws F a rhs m)
    (hrefuse : MayRefuse traits allowed ws.length) :
    Ends allowed (a.copyAssign traits rhs) m fun a' m' => Both traits N ws M ws F a' rhs m' := by
  rw [copyAssign, h.right.size]
  refine (ends_clear h.owns).bind fun a₁ m₁ h₁ => ?_
  refine (ends_reserve h₁ hrefuse).bind ?_
  rintro a₂ m₂ ⟨h₂, hroom⟩
  have hv := (h₂.both h.right).symm.buffers
  rw [cells_front rhs.capacity, cells_nil_room hroom] at hv
  refine (ends_copyCells hv rfl rfl).bind fun _ m₃ hv' => ?_
  exact ends_pure
    (Both.of_buffers (k := ws.length) h.right h₂.toFits hv' h.right.le h.right.size hroom rfl).symm

/-- A buffer of one array is not the inline buffer of the other. -/
theorem Both.begin_ne (h : Both traits N vs M ws F a rhs m) : rhs.begin ≠ a.inlineBegin := by
  have hv : m.view = {⟨rhs.begin, !rhs.isInline, cells rhs.capacity ws⟩} +
      (a.chunks vs + (rhs.spare + F)) := by
    rw [h.view, chunks, chunks]
    abel
  exact ne_inlineBegin hv

theorem ends_moveAssign (h : Both traits N vs M ws F a rhs m)
    (hrefuse : MayRefuse traits allowed ws.length) :
    Ends allowed (a.moveAssign traits rhs) m fun r m' =>
      Both traits N ws M [] F r.1 r.2 m' := by
  refine (ends_resetToInline h.owns).bind ?_
  rintro a₁ m₁ ⟨h₁, ha₁⟩
  have hb := h₁.both h.right
  cases hinline : rhs.isInline with
  | false =>
      have hne : rhs.begin ≠ rhs.inlineBegin := of_decide_eq_false hinline
      have hv := h₁.view
      rw [chunks_heap hne, ha₁, chunks_inline rfl rfl] at hv
      refine ends_pure ?_
      rw [ha₁]
      have ha₂ := Owns.of_heap (F := {rhs.inlineChunk} + F) (n := rhs.size) (ha₁ ▸ h₁.toFits)
        (ha₁ ▸ hb.begin_ne) h.right.le h.right.capacity_le (hv.trans (by abel)) h.right.size
      refine ⟨ha₂.toFits, ⟨rfl, Nat.zero_le _, ?_, h.right.inlineCapacity, h.right.inline_le,
        fun _ => h.right.inlineCapacity⟩, ?_⟩
      · exact h.right.inlineCapacity.trans_le h.right.inline_le
      · rw [chunks_inline rfl rfl]
        exact ha₂.view
  | true =>
      rw [Bool.not_true, if_neg Bool.false_ne_true, h.right.size]
      refine (ends_reserve h₁ hrefuse).bind ?_
      rintro a₂ m₂ ⟨h₂, hroom⟩
      have hv := (h₂.both h.right).symm.buffers
      rw [cells_front rhs.capacity, cells_nil_room hroom] at hv
      refine (ends_moveCells hv rfl rfl).bind fun _ m₃ hv' => ?_
      have hlength : (ws.map traits.residue).length = ws.length := List.length_map _
      have hcells : cells rhs.capacity (ws.map traits.residue) = [] ++
          ((ws.map traits.residue).map some ++
            List.replicate (rhs.capacity - ws.length) none) := by
        rw [cells_front, hlength]
      rw [← hcells] at hv'
      have h₃ := Both.of_buffers (n := rhs.size) (k := ws.length) h.right h₂.toFits hv'
        (hlength.trans_le h.right.le) (h.right.size.trans hlength.symm) hroom rfl
      refine (ends_clear h₃.owns).bind fun rhs₁ m₄ h₄ => ?_
      exact ends_pure (h₄.both h₃.right).symm

/-- The elements at the places that both arrays have change sides. -/
theorem ends_swapShared {us us' : List T} (h : Both traits N (us ++ vs) M (us' ++ ws) F a rhs m)
    (hshared : us.length = us'.length) :
    Ends allowed (swapCells a.begin rhs.begin 0 us.length) m fun _ m' =>
      Both traits N (us' ++ vs) M (us ++ ws) F a rhs m' := by
  have hlength : (us' ++ vs).length = (us ++ vs).length := by
    rw [List.length_append, List.length_append, hshared]
  have hlength' : (us ++ ws).length = (us' ++ ws).length := by
    rw [List.length_append, List.length_append, hshared]
  have hcells : ∀ n (us vs : List T), cells n (us ++ vs) = [] ++ (us.map some ++
      (vs.map some ++ List.replicate (n - (us ++ vs).length) none)) := by
    intro n us vs
    rw [cells, List.map_append, List.append_assoc, List.nil_append]
  have hv := h.buffers
  rw [hcells, hcells] at hv
  refine (ends_swapCells hv hshared rfl rfl).mono fun _ m' hv' => ?_
  rw [← hlength, ← hlength', ← hcells, ← hcells] at hv'
  exact Both.of_buffers (n := a.size) (k := rhs.size) h.left h.right hv'
    (hlength.trans_le h.left.le) (h.left.size.trans hlength.symm)
    (hlength'.trans_le h.right.le) (h.right.size.trans hlength'.symm)

theorem ends_moveTail {us : List T} (h : Both traits N (us ++ vs) M ws F a rhs m) {shared : Nat}
    (hleft : shared = us.length) (hright : shared = ws.length)
    (hroom : (us ++ vs).length ≤ rhs.capacity) :
    Ends allowed (a.moveTail traits rhs shared) m fun r m' =>
      Both traits N us M (ws ++ vs) F r.1 r.2 m' := by
  have hsize := h.left.size
  have hle := h.left.le
  rw [List.length_append] at hsize hroom hle
  have hcount : a.size - shared = vs.length := by
    omega
  have hv := h.buffers
  rw [cells_append, cells_room (k := vs.length) (by omega)] at hv
  rw [moveTail, hcount]
  refine (ends_moveCells hv (by simp [hleft]) (by simp [hright])).bind fun _ m₁ hv' => ?_
  have hlength : (vs.map traits.residue).length = vs.length := List.length_map _
  rw [← hlength, ← cells_append, hlength, ← cells_append] at hv'
  have h₁ := Both.of_buffers (n := a.size) (k := a.size) h.left h.right hv' (by simp; omega)
    (by simp; omega) (by simp; omega) (by simp; omega)
  refine (ends_destroyRange h₁.owns hleft h₁.left.size).bind fun _ m₂ hv₂ => ?_
  have h₂ := Owns.of_buffer h.left hv₂ (by omega) hleft
  exact ends_pure (h₂.both h₁.right)

theorem ends_swap (h : Both traits N vs M ws F a rhs m)
    (hrefuse : MayRefuse traits allowed (max vs.length ws.length)) :
    Ends allowed (a.swap traits rhs) m fun r m' => Both traits N ws M vs F r.1 r.2 m' := by
  rw [swap]
  split
  next hheap =>
    rw [Bool.and_eq_true, Bool.not_eq_true', Bool.not_eq_true'] at hheap
    have hne : a.begin ≠ a.inlineBegin := of_decide_eq_false hheap.1
    have hne' : rhs.begin ≠ rhs.inlineBegin := of_decide_eq_false hheap.2
    have hv := h.view
    rw [chunks_heap hne, chunks_heap hne'] at hv
    have ha := Owns.of_heap (n := rhs.size) (F := {⟨a.begin, true, cells a.capacity vs⟩} +
      {rhs.inlineChunk} + F) h.left h.begin_ne h.right.le h.right.capacity_le
        (hv.trans (by abel)) h.right.size
    have hr := Owns.of_heap (n := a.size) (F := {⟨rhs.begin, true, cells rhs.capacity ws⟩} +
      {a.inlineChunk} + F) h.right h.symm.begin_ne h.left.le h.left.capacity_le
        (hv.trans (by abel)) h.left.size
    have hchunks := chunks_heap (a := { rhs with
      begin := a.begin, size := a.size, capacity := a.capacity }) h.symm.begin_ne vs
    refine ends_pure ⟨ha.toFits, hr.toFits, ?_⟩
    rw [hchunks]
    exact ha.view
  next =>
    rw [h.right.size]
    refine (ends_reserve h.owns (hrefuse.mono (Nat.le_max_right ..))).bind ?_
    rintro a₁ m₁ ⟨h₁, hroom⟩
    have hb₁ := h₁.both h.right
    rw [h₁.size]
    refine (ends_reserve hb₁.symm.owns (hrefuse.mono (Nat.le_max_left ..))).bind ?_
    rintro rhs₁ m₂ ⟨h₂, hroom'⟩
    have hb₂ := (h₂.both h₁.toFits).symm
    rw [h₂.size]
    by_cases hle : ws.length ≤ vs.length
    · have hsplit : vs = vs.take ws.length ++ vs.drop ws.length :=
        (List.take_append_drop ..).symm
      have htake : (vs.take ws.length).length = ws.length := List.length_take_of_le hle
      have hb₃ : Both traits N (vs.take ws.length ++ vs.drop ws.length) M (ws ++ []) F a₁ rhs₁
          m₂ := by
        rw [← hsplit, List.append_nil]
        exact hb₂
      have hmin : min vs.length ws.length = (vs.take ws.length).length := by
        omega
      rw [hmin]
      refine (ends_swapShared hb₃ htake).bind fun _ m₃ hb₄ => ?_
      rw [if_pos hle]
      refine (ends_moveTail hb₄ htake (List.append_nil _ ▸ rfl) ?_).mono fun r m₄ hb₅ => ?_
      · rw [List.length_append, List.length_drop]
        omega
      · rwa [List.append_nil, ← hsplit] at hb₅
    · have hsplit : ws = ws.take vs.length ++ ws.drop vs.length :=
        (List.take_append_drop ..).symm
      have htake : (ws.take vs.length).length = vs.length :=
        List.length_take_of_le (Nat.not_le.mp hle).le
      have hb₃ : Both traits N (vs ++ []) M (ws.take vs.length ++ ws.drop vs.length) F a₁ rhs₁
          m₂ := by
        rw [← hsplit, List.append_nil]
        exact hb₂
      have hmin : min vs.length ws.length = vs.length := by
        omega
      rw [hmin]
      refine (ends_swapShared hb₃ htake.symm).bind fun _ m₃ hb₄ => ?_
      rw [if_neg hle]
      have hroom'' : (vs ++ ws.drop vs.length).length ≤ a₁.capacity := by
        rw [List.length_append, List.length_drop]
        omega
      refine (ends_moveTail hb₄.symm rfl ?_ hroom'').bind ?_
      · rw [List.append_nil, htake]
      · rintro ⟨rhs₂, a₂⟩ m₄ hb₅
        rw [List.append_nil, ← hsplit] at hb₅
        exact ends_pure hb₅.symm

end Lorelei.Support.VarSizeArray
