import Lorelei.Lib.StorageRanges

/-!
# References to objects

A reference to an object is read where it is needed, which may be long after it was given. It
reads the same value as long as the object stays in its cell, whatever is constructed or
allocated next to it, and it is a fault once the cell is vacated or its block released.
-/

namespace Storage

variable {T α β : Type} {b c i j n : Nat} {v w : T} {m m' : Memory T} {heap : Bool}
  {F : Multiset (Chunk T)}

/-! ## Single runs -/

section Runs

variable {x : Exec T α} {f g : α → Exec T β} {a : α} {fault : Fault}

theorem run_bind_ok (h : x m = .ok (a, m')) : (x >>= f) m = f a m' := by
  show (x m >>= fun p => f p.1 p.2) = _
  rw [h]
  rfl

theorem run_bind_error (h : x m = .error fault) : (x >>= f) m = .error fault := by
  show (x m >>= fun p => f p.1 p.2) = _
  rw [h]
  rfl

theorem run_bind_congr (h : ∀ a m', x m = .ok (a, m') → f a m' = g a m') :
    (x >>= f) m = (x >>= g) m := by
  cases hx : x m with
  | ok p => rw [run_bind_ok hx, run_bind_ok hx, h _ _ hx]
  | error fault => rw [run_bind_error hx, run_bind_error hx]

theorem run_bind_eq {y : Exec T α} (h : x m = y m) : (x >>= f) m = (y >>= f) m := by
  show (x m >>= fun p => f p.1 p.2) = _
  rw [h]
  rfl

/-- Two loops run alike as long as something holds that makes their bodies run alike. -/
theorem forRange_congr {P : Memory T → Prop} {body body' : Nat → Exec T PUnit}
    (hbody : ∀ i m, P m → body i m = body' i m)
    (hkeep : ∀ i m r m', P m → body i m = .ok (r, m') → P m') (hm : P m) :
    forRange body i n m = forRange body' i n m := by
  induction n generalizing i m with
  | zero => rfl
  | succ n ih =>
      rw [forRange, forRange]
      cases hrun : body i m with
      | ok p =>
          rw [run_bind_ok hrun, run_bind_ok ((hbody i m hm).symm.trans hrun)]
          exact ih (hkeep i m p.1 p.2 hm hrun)
      | error fault => rw [run_bind_error hrun, run_bind_error ((hbody i m hm).symm.trans hrun)]

end Runs

/-! ## What stays readable -/

theorem lookup_setCell (blocks : List (Nat × Block T)) (new : Option (Object T)) :
    (setCell blocks b j new).lookup c = (blocks.lookup c).map fun block =>
      if c = b then { block with cells := block.cells.set j new } else block := by
  induction blocks with
  | nil => rfl
  | cons e blocks ih =>
      rw [setCell, List.map_cons, ← setCell]
      by_cases hc : c = e.1
      · subst hc
        have hkey : ∀ e' : Nat × Block T, e'.1 = e.1 → (e.1 == e'.1) = true :=
          fun e' he' => beq_iff_eq.mpr he'.symm
        rw [List.lookup_cons, List.lookup_cons, hkey e rfl, hkey _ (by split <;> rfl)]
        by_cases hb : e.1 = b <;> simp [hb]
      · have hkey : ∀ e' : Nat × Block T, e'.1 = e.1 → (c == e'.1) = false :=
          fun e' he' => beq_eq_false_iff_ne.mpr (he' ▸ hc)
        rw [List.lookup_cons, List.lookup_cons, hkey e rfl, hkey _ (by split <;> rfl)]
        exact ih

theorem cell?_setCell_of_ne (blocks : List (Nat × Block T)) (new : Option (Object T))
    (h : c ≠ b ∨ i ≠ j) : cell? (setCell blocks b j new) c i = cell? blocks c i := by
  rw [cell?, cell?, lookup_setCell]
  cases blocks.lookup c with
  | none => rfl
  | some block =>
      by_cases hc : c = b
      · have hij : j ≠ i := fun heq => h.elim (fun hne => hne hc) fun hne => hne heq.symm
        simp [hc, List.getElem?_set_ne hij]
      · simp [hc]

theorem read_eq_ok_iff : read b i m = .ok (v, m') ↔
    ∃ o, cell? m.blocks b i = some (some o) ∧ o.value = v ∧ m = m' := by
  rw [read]
  split
  · simp [*]
  · simp [*]
  · simp [*]

/-- Constructing an object does not change the others. -/
theorem read_of_construct {r : PUnit} (hc : construct b j w m = .ok (r, m'))
    (hr : read c i m = .ok (v, m)) : read c i m' = .ok (v, m') := by
  obtain ⟨o, ho, hv, -⟩ := read_eq_ok_iff.mp hr
  rw [construct] at hc
  split at hc
  · cases hc
  · cases hc
  · rename_i hnone
    cases hc
    refine read_eq_ok_iff.mpr ⟨o, ?_, hv, rfl⟩
    refine (cell?_setCell_of_ne _ _ ?_).trans ho
    by_contra hsame
    obtain ⟨rfl, rfl⟩ := not_or.mp hsame |>.imp not_not.mp not_not.mp
    cases hnone.symm.trans ho

theorem read_of_newBlock {maxSize : Nat} (hn : newBlock heap maxSize n m = .ok (b, m'))
    (hr : read c i m = .ok (v, m)) : read c i m' = .ok (v, m') := by
  obtain ⟨o, ho, hv, -⟩ := read_eq_ok_iff.mp hr
  obtain ⟨block, hblock, hcell⟩ := Option.bind_eq_some_iff.mp ho
  obtain ⟨pre, post, heq, -⟩ := List.lookup_eq_some_iff.mp hblock
  have hmem : (c, block) ∈ m.blocks := by
    rw [heq]
    exact List.mem_append_right _ List.mem_cons_self
  have hne : c ≠ m.nextBlock := (m.fresh (c, block) hmem).ne
  rw [newBlock] at hn
  split at hn
  · cases hn
  · cases hn
    refine read_eq_ok_iff.mpr ⟨o, ?_, hv, rfl⟩
    rw [cell?, List.lookup_cons, beq_eq_false_iff_ne.mpr hne]
    exact ho

/-! ## What is readable no more -/

theorem read_of_vacant {cells : List (Option T)} (hv : m.view = {⟨b, heap, cells⟩} + F)
    (hi : cells[i]? = some none) : read b i m = .error .vacant := by
  obtain ⟨old, hold, hnone⟩ := cell?_of_view hv hi
  obtain rfl := Option.map_eq_none_iff.mp hnone
  rw [read, hold]

theorem read_of_notMem (h : ∀ p ∈ m.view, p.block ≠ b) : read b i m = .error .noCell := by
  have hlookup : m.blocks.lookup b = none := by
    refine List.lookup_eq_none_iff.mpr fun e he => ?_
    rw [bne_iff_ne]
    exact (h (chunkOf e) (Multiset.mem_coe.mpr (List.mem_map_of_mem he))).symm
  rw [read, cell?, hlookup]
  rfl

end Storage
