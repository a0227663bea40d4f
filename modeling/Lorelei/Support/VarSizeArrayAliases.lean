import Lorelei.Lib.StorageReads
import Lorelei.Support.VarSizeArrayRefines

/-!
# Arguments that are elements of the array

An operation that takes a value by reference may be given an element of the array itself.
The reference stays good as long as the element stays where it is. Every operation reads
it before it moves the elements, but for `resize`, which may move them first and reads the
reference once for each element it adds.
-/

namespace Lorelei.Support.VarSizeArray

open Storage

variable {T : Type} {traits : ElementTraits T} {N n b i : Nat} {a a' : VarSizeArray}
  {vs : List T} {v : T} {m m' : Memory T} {F : Multiset (Chunk T)} {arg : Arg T}

/-- The operations that take a value by reference. -/
inductive ByReference where
  | pushBack
  | emplaceBack
  | insert (index : Nat)
  | insertCopies (index count : Nat)
  | resize (n : Nat)
deriving DecidableEq, Repr

/-- The array after an operation, and the element that it returns. -/
def ByReference.run (traits : ElementTraits T) (a : VarSizeArray) (arg : Arg T) :
    ByReference → Exec T (VarSizeArray × Option Nat)
  | pushBack => do return (← a.pushBack traits arg, none)
  | emplaceBack => do
      let a ← a.emplaceBack traits arg
      return (a, some (a.size - 1))
  | insert index => do
      let (a, position) ← a.insert traits index arg
      return (a, some position)
  | insertCopies index count => do
      let (a, position) ← a.insertCopies traits index count arg
      return (a, some position)
  | resize n => do return (← a.resizeValue traits n arg, none)

/-- An operation moves the elements before it has read its argument for the last time. -/
def ByReference.movesFirst (traits : ElementTraits T) (a : VarSizeArray) : ByReference → Bool
  | resize n => decide (a.capacity < n) && decide (a.computeNewCapacity n ≤ traits.maxSize)
  | _ => false

/-! ## Operations that read their argument first -/

/-- What follows a read of an element is the same as with its value. -/
theorem run_arg {α : Type} {f : T → Exec T α} (hr : read b i m = .ok (v, m)) :
    ((Arg.element b i).read >>= f) m = ((Arg.value v).read >>= f) m :=
  (run_bind_ok hr).trans (run_bind_ok (x := (Arg.value v).read) rfl).symm

theorem emplaceBack_element (hr : read b i m = .ok (v, m)) :
    a.emplaceBack traits (.element b i) m = a.emplaceBack traits (.value v) m := by
  rw [emplaceBack, emplaceBack]
  split
  · rw [growAndEmplaceBack, growAndEmplaceBack]
    exact run_bind_congr fun _ m' hnew => run_arg (read_of_newBlock hnew hr)
  · exact run_arg hr

theorem insertCopies_element {index count : Nat} (hr : read b i m = .ok (v, m)) :
    a.insertCopies traits index count (.element b i) m =
      a.insertCopies traits index count (.value v) m := by
  rw [insertCopies, insertCopies]
  split
  · rfl
  · exact run_arg hr

/-! ## Resizing -/

/-- Constructing elements does not change the one that they are copied from. -/
theorem fill_element {c k : Nat} (hr : read b i m = .ok (v, m)) :
    forRange (fun j => do construct c j (← (Arg.element b i).read)) k n m =
      forRange (fun j => do construct c j (← (Arg.value v).read)) k n m := by
  refine forRange_congr (P := fun m => read b i m = .ok (v, m)) (fun j m hr => run_arg hr) ?_ hr
  intro j m r m' hr hrun
  rw [run_arg hr] at hrun
  exact read_of_construct hrun hr

theorem reserve_stays (hstays : a.capacity < n → traits.maxSize < a.computeNewCapacity n)
    (hrun : a.reserve traits n m = .ok (a', m')) : m' = m := by
  rw [reserve] at hrun
  split at hrun
  next hlt =>
    have hrefused : newBlock true traits.maxSize (a.computeNewCapacity n) m =
        .error .outOfMemory := if_pos (hstays hlt)
    rw [grow, run_bind_error hrefused] at hrun
    cases hrun
  next =>
    cases hrun
    rfl

theorem resizeValue_element (hstays : a.capacity < n → traits.maxSize < a.computeNewCapacity n)
    (hr : read b i m = .ok (v, m)) :
    a.resizeValue traits n (.element b i) m = a.resizeValue traits n (.value v) m := by
  rw [resizeValue, resizeValue, resizeWith, resizeWith]
  split
  · rfl
  · split
    · refine run_bind_congr fun a' m' hreserve => ?_
      obtain rfl := reserve_stays hstays hreserve
      exact run_bind_eq (fill_element hr)
    · rfl

/-- No element can be read where it was before the array grew. -/
theorem read_moved (h : Owns traits N vs F a m) (h' : Owns traits N vs F a' m')
    (hi : i < vs.length) (hb : b ≠ a.begin) (hinline : b ≠ a.inlineBegin)
    (ha' : a' = { a with begin := b, capacity := n }) :
    ∃ fault, fault ≠ .outOfMemory ∧ read a.begin i m' = .error fault := by
  have hv := h'.view
  subst ha'
  rw [chunks_heap (a := { a with begin := b, capacity := n }) hinline, add_assoc] at hv
  by_cases hbegin : a.begin = a.inlineBegin
  · have hN : i < a.inlineCapacity := by
      rw [h.inlineCapacity, ← h.inline (decide_eq_true hbegin)]
      exact hi.trans_le h.le
    rw [add_left_comm] at hv
    refine ⟨.vacant, nofun, ?_⟩
    rw [hbegin]
    exact read_of_vacant hv (List.getElem?_replicate_of_lt hN)
  · have hold := h.view
    rw [chunks_heap hbegin, add_assoc] at hold
    refine ⟨.noCell, nofun, read_of_notMem fun p hp => ?_⟩
    rw [hv] at hp
    rcases Multiset.mem_add.mp hp with hp | hp
    · rw [Multiset.mem_singleton.mp hp]
      exact hb
    · exact (ne_of_view hold hp).symm

theorem resizeValue_dangles (h : Owns traits N vs F a m) (hi : i < vs.length)
    (hlt : a.capacity < n) (hmax : a.computeNewCapacity n ≤ traits.maxSize) :
    ∃ fault, fault ≠ .outOfMemory ∧
      a.resizeValue traits n (.element a.begin i) m = .error fault := by
  have hgrow : Ends (fun _ => False) (a.grow traits n) m _ :=
    ends_grow h hlt fun hlt => absurd hlt (Nat.not_lt.mpr hmax)
  have hsize : a.size < n := by
    rw [h.size]
    exact h.le.trans_lt hlt
  rw [Ends] at hgrow
  split at hgrow
  next a' m' hrun =>
    obtain ⟨h', b, hb, hinline, ha'⟩ := hgrow
    obtain ⟨fault, hfault, hread⟩ := read_moved h h' hi hb hinline ha'
    have hreserve : a.reserve traits n m = .ok (a', m') := by
      rw [reserve, if_pos hlt, hrun]
    refine ⟨fault, hfault, ?_⟩
    rw [resizeValue, resizeWith, if_neg (Nat.lt_asymm hsize), if_pos hsize,
      run_bind_ok hreserve]
    refine run_bind_error ?_
    obtain ⟨k, hk⟩ : ∃ k, n - a'.size = k + 1 :=
      Nat.exists_eq_succ_of_ne_zero (by rw [h'.size, ← h.size]; omega)
    rw [hk, forRange]
    exact run_bind_error (run_bind_error hread)
  next => exact hgrow.elim

/-! ## Elements and their copies -/

theorem Owns.read_element (h : Owns traits N vs F a m) (hv : vs[i]? = some v) :
    read a.begin i m = .ok (v, m) := by
  refine read_eq h.buffer ?_
  have hlt := (List.getElem?_eq_some_iff.mp hv).1
  rw [cells, List.getElem?_append_left (by rwa [List.length_map]), List.getElem?_map, hv]
  rfl

/-- A copy of an element is always good for an array that is not refused memory. -/
theorem resizeValue_value (h : Owns traits N vs F a m) :
    ∀ fault, a.resizeValue traits n (.value v) m = .error fault → fault = .outOfMemory := by
  intro fault hrun
  have hends : Ends (· = .outOfMemory) (a.resizeValue traits n (.value v)) m _ :=
    ends_resizeWith h (reads_value F v) fun _ => rfl
  rwa [Ends, hrun] at hends

theorem resize_ne (h : Owns traits N vs F a m) (hv : vs[i]? = some v) (hlt : a.capacity < n)
    (hmax : a.computeNewCapacity n ≤ traits.maxSize) :
    (ByReference.resize n).run traits a (.element a.begin i) m ≠
      (ByReference.resize n).run traits a (.value v) m := by
  intro hsame
  have hi := (List.getElem?_eq_some_iff.mp hv).1
  obtain ⟨fault, hfault, hrun⟩ := resizeValue_dangles h hi hlt hmax
  rw [ByReference.run, ByReference.run, run_bind_error hrun] at hsame
  cases hvalue : a.resizeValue traits n (.value v) m with
  | ok p =>
      rw [run_bind_ok hvalue] at hsame
      cases hsame
  | error fault' =>
      rw [run_bind_error hvalue] at hsame
      cases hsame
      exact hfault (resizeValue_value h _ hvalue)

/-- An operation does the same with an element of the array as with a copy of the element,
unless it moves the elements first. -/
theorem alias_iff (op : ByReference) (h : Owns traits N vs F a m) (hv : vs[i]? = some v) :
    op.run traits a (.element a.begin i) m = op.run traits a (.value v) m ↔
      op.movesFirst traits a = false := by
  have hr := h.read_element hv
  cases op with
  | pushBack =>
      exact iff_of_true (run_bind_eq (emplaceBack_element hr)) rfl
  | emplaceBack =>
      exact iff_of_true (run_bind_eq (emplaceBack_element hr)) rfl
  | insert index =>
      exact iff_of_true (run_bind_eq (run_bind_eq (emplaceBack_element hr))) rfl
  | insertCopies index count =>
      exact iff_of_true (run_bind_eq (insertCopies_element hr)) rfl
  | resize n =>
      rw [ByReference.movesFirst, Bool.and_eq_false_iff, decide_eq_false_iff_not,
        decide_eq_false_iff_not]
      constructor
      · intro hsame
        by_contra hmoves
        obtain ⟨hlt, hmax⟩ := not_or.mp hmoves |>.imp not_not.mp not_not.mp
        exact resize_ne h hv hlt hmax hsame
      · intro hstays
        refine run_bind_eq (resizeValue_element (fun hlt => ?_) hr)
        exact Nat.not_le.mp (hstays.resolve_left (not_not.mpr hlt))

/-- An array of one element, in its inline buffer. -/
def lone : VarSizeArray := ⟨0, 1, 1, 0, 1⟩

def loneMemory : Memory Nat :=
  match createFrom numbers 1 [.value 7] .empty with
  | .ok (_, m) => m
  | .error _ => .empty

theorem lone_owns : Owns numbers 1 [7] 0 lone loneMemory where
  size := rfl
  le := Nat.le_refl 1
  capacity_le := Nat.one_le_of_lt (Nat.lt_add_one 99)
  inlineCapacity := rfl
  inline_le := Nat.one_le_of_lt (Nat.lt_add_one 99)
  inline := fun _ => rfl
  view := rfl

theorem alias_iff_lone :
    (ByReference.pushBack.run numbers lone (.element lone.begin 0) loneMemory =
        ByReference.pushBack.run numbers lone (.value 7) loneMemory ↔
      ByReference.pushBack.movesFirst numbers lone = false) ∧
    ((ByReference.resize 5).run numbers lone (.element lone.begin 0) loneMemory =
        (ByReference.resize 5).run numbers lone (.value 7) loneMemory ↔
      (ByReference.resize 5).movesFirst numbers lone = false) :=
  ⟨alias_iff .pushBack lone_owns rfl, alias_iff (.resize 5) lone_owns rfl⟩

/-- The only element of an array is to be repeated by `resize`, which has moved it by then. -/
theorem not_alias : ¬ ∀ (op : ByReference) (N : Nat) (vs : List Nat) (F : Multiset (Chunk Nat))
    (a : VarSizeArray) (m : Memory Nat) (i v : Nat), Owns numbers N vs F a m → vs[i]? = some v →
    op.run numbers a (.element a.begin i) m = op.run numbers a (.value v) m := by
  intro h
  have hv : [7][0]? = some 7 := rfl
  have hlt : lone.capacity < 5 := Nat.lt_of_sub_ne_zero (Nat.succ_ne_zero 3)
  have hmax : lone.computeNewCapacity 5 ≤ numbers.maxSize := by decide
  exact resize_ne lone_owns hv hlt hmax (h (.resize 5) 1 [7] 0 lone loneMemory 0 7 lone_owns hv)

end Lorelei.Support.VarSizeArray
