import Mathlib.Algebra.Order.Group.Multiset
import Mathlib.Data.List.Nodup
import Mathlib.Data.Multiset.MapFold

/-!
# Storage and the lifetimes of objects

Storage consists of blocks of cells, in which objects are constructed and destroyed one at a
time. Access to a block or a cell that is not there, to a cell without an object, the
construction of an object on top of another one, and the release of a block that still has
objects in it are faults. As every object has an identity, a memory carries the proof that each
object constructed so far either is alive in exactly one cell or has been destroyed once.

What a computation does is said by the chunks of the storage it works on (`Memory.view`), next
to an arbitrary rest.
-/

namespace Storage

open scoped List

variable {T α β : Type}

/-! ## Blocks -/

/-- An object, with its identity. -/
structure Object (T : Type) where
  id : Nat
  value : T

/-- A block, allocated on the heap or part of an object. -/
structure Block (T : Type) where
  heap : Bool
  cells : List (Option (Object T))

/-- The identities of the objects in a block. -/
def Block.ids (block : Block T) : List Nat := block.cells.filterMap (Option.map Object.id)

def idsOf (blocks : List (Nat × Block T)) : List Nat := blocks.flatMap fun e => e.2.ids

/-- Replace a cell of a block. -/
def setCell (blocks : List (Nat × Block T)) (b i : Nat) (cell : Option (Object T)) :
    List (Nat × Block T) :=
  blocks.map fun e => if e.1 = b then (e.1, { e.2 with cells := e.2.cells.set i cell }) else e

/-- Memory, with all that has happened to objects. -/
structure Memory (T : Type) where
  blocks : List (Nat × Block T)
  nextBlock : Nat
  constructed : Nat
  destroyed : List Nat
  fresh : ∀ e ∈ blocks, e.1 < nextBlock
  apart : (blocks.map Prod.fst).Nodup
  once : (destroyed ++ idsOf blocks).Perm (List.range constructed)

def Memory.empty : Memory T := ⟨[], 0, 0, [], nofun, List.nodup_nil, .nil⟩

/-! ## Computations -/

inductive Fault where
  | outOfMemory
  | noCell
  | occupied
  | vacant
  | badRelease
  | leak
  | noObject
deriving DecidableEq, Repr

abbrev Exec (T α : Type) := StateT (Memory T) (Except Fault) α

/-- A computation ends as `Q` says, or with a fault that is allowed. -/
def Ends (allowed : Fault → Prop) (x : Exec T α) (m : Memory T) (Q : α → Memory T → Prop) : Prop :=
  match x m with
  | .ok (a, m') => Q a m'
  | .error fault => allowed fault

section Rules

variable {allowed : Fault → Prop} {x : Exec T α} {f : α → Exec T β} {m : Memory T}
  {Q Q' : α → Memory T → Prop} {R : β → Memory T → Prop}

theorem Ends.bind (hx : Ends allowed x m Q) (hf : ∀ a m', Q a m' → Ends allowed (f a) m' R) :
    Ends allowed (x >>= f) m R := by
  have hrun : (x >>= f) m = match x m with
      | .ok (a, m') => f a m'
      | .error fault => .error fault := by
    show (x m >>= fun p => f p.1 p.2) = _
    cases x m <;> rfl
  rw [Ends] at hx ⊢
  rw [hrun]
  cases heq : x m with
  | ok p =>
      rw [heq] at hx
      exact hf p.1 p.2 hx
  | error fault =>
      rw [heq] at hx
      exact hx

theorem Ends.mono (hx : Ends allowed x m Q) (h : ∀ a m', Q a m' → Q' a m') :
    Ends allowed x m Q' := by
  rw [Ends] at hx ⊢
  cases heq : x m with
  | ok p =>
      rw [heq] at hx
      exact h p.1 p.2 hx
  | error fault =>
      rw [heq] at hx
      exact hx

theorem ends_pure {a : α} (h : Q a m) : Ends allowed (pure a) m Q := h

end Rules

/-! ## Cells -/

variable {blocks pre post : List (Nat × Block T)} {block : Block T} {b i : Nat}
  {old new : Option (Object T)}

/-- The identity of the object in a cell. -/
def idsIn (cell : Option (Object T)) : List Nat := (cell.map Object.id).toList

/-- A cell, if the block and the cell are there. -/
def cell? (blocks : List (Nat × Block T)) (b i : Nat) : Option (Option (Object T)) :=
  (blocks.lookup b).bind fun block => block.cells[i]?

theorem notMem_of_apart (h : ((pre ++ (b, block) :: post).map Prod.fst).Nodup) :
    b ∉ (pre ++ post).map Prod.fst := by
  rw [List.map_append, List.map_cons, List.nodup_middle, List.nodup_cons] at h
  rw [List.map_append]
  exact h.1

theorem lookup_split (h : b ∉ (pre ++ post).map Prod.fst) :
    (pre ++ (b, block) :: post).lookup b = some block := by
  refine List.lookup_eq_some_iff.mpr ⟨pre, post, rfl, fun p hp => ?_⟩
  rw [bne_iff_ne]
  rintro rfl
  exact h (List.mem_map_of_mem (List.mem_append_left _ hp))

theorem setCell_of_notMem (h : b ∉ blocks.map Prod.fst) : setCell blocks b i new = blocks := by
  refine (List.map_congr_left fun e he => ?_).trans (List.map_id' blocks)
  rw [if_neg]
  rintro rfl
  exact h (List.mem_map_of_mem he)

theorem setCell_split (h : b ∉ (pre ++ post).map Prod.fst) :
    setCell (pre ++ (b, block) :: post) b i new =
      pre ++ (b, { block with cells := block.cells.set i new }) :: post := by
  rw [List.map_append, List.mem_append, not_or] at h
  rw [setCell, List.map_append, List.map_cons, if_pos rfl, ← setCell, ← setCell,
    setCell_of_notMem h.1, setCell_of_notMem h.2]

theorem filter_split (h : b ∉ (pre ++ post).map Prod.fst) :
    ((pre ++ (b, block) :: post).filter fun e => e.1 ≠ b) = pre ++ post := by
  have hkeep : ∀ e ∈ pre ++ post, decide (e.1 ≠ b) = true := by
    rintro e he
    rw [decide_eq_true_iff]
    rintro rfl
    exact h (List.mem_map_of_mem he)
  rw [List.filter_append, List.filter_cons_of_neg (by simp), ← List.filter_append,
    List.filter_eq_self.mpr hkeep]

theorem map_fst_setCell : (setCell blocks b i new).map Prod.fst = blocks.map Prod.fst := by
  rw [setCell, List.map_map]
  refine List.map_congr_left fun e _ => ?_
  rw [Function.comp_apply]
  split <;> rfl

theorem ids_set (h : block.cells[i]? = some old) :
    (idsIn old ++ { block with cells := block.cells.set i new }.ids).Perm
      (idsIn new ++ block.ids) := by
  obtain ⟨hlt, hget⟩ := List.getElem?_eq_some_iff.mp h
  have hids : ∀ cell, (block.cells.take i ++ cell :: block.cells.drop (i + 1)).filterMap
      (Option.map Object.id) = (block.cells.take i).filterMap (Option.map Object.id) ++
        (idsIn cell ++ (block.cells.drop (i + 1)).filterMap (Option.map Object.id)) := by
    intro cell
    rw [List.filterMap_append]
    cases cell <;> rfl
  have hcells : block.cells = block.cells.take i ++ old :: block.cells.drop (i + 1) := by
    rw [← hget, ← List.drop_eq_getElem_cons hlt, List.take_append_drop]
  have hold : block.ids = (block.cells.take i).filterMap (Option.map Object.id) ++
      (idsIn old ++ (block.cells.drop (i + 1)).filterMap (Option.map Object.id)) := by
    rw [← hids, ← hcells]
    rfl
  rw [hold, Block.ids, List.set_eq_take_append_cons_drop, if_pos hlt, hids]
  calc _
    _ ~ _ := List.perm_append_comm_assoc ..
    _ ~ _ := .append_left _ (List.perm_append_comm_assoc ..)
    _ ~ _ := List.perm_append_comm_assoc ..

/-- Identities of objects come and go with the cells. -/
theorem idsOf_setCell (hapart : (blocks.map Prod.fst).Nodup)
    (h : cell? blocks b i = some old) :
    (idsIn old ++ idsOf (setCell blocks b i new)).Perm (idsIn new ++ idsOf blocks) := by
  obtain ⟨block, hlookup, hcell⟩ := Option.bind_eq_some_iff.mp h
  obtain ⟨pre, post, rfl, -⟩ := List.lookup_eq_some_iff.mp hlookup
  have hids : ∀ block : Block T, idsOf (pre ++ (b, block) :: post) =
      idsOf pre ++ (block.ids ++ idsOf post) := by
    intro block
    rw [idsOf, List.flatMap_append, List.flatMap_cons]
    rfl
  rw [setCell_split (notMem_of_apart hapart), hids, hids]
  calc idsIn old ++ (idsOf pre ++ (_ ++ idsOf post))
    _ ~ idsOf pre ++ (idsIn old ++ (_ ++ idsOf post)) := List.perm_append_comm_assoc ..
    _ ~ idsOf pre ++ (idsIn new ++ (block.ids ++ idsOf post)) := by
      rw [← List.append_assoc (idsIn old), ← List.append_assoc (idsIn new)]
      exact .append_left _ (.append_right _ (ids_set hcell))
    _ ~ idsIn new ++ (idsOf pre ++ (block.ids ++ idsOf post)) := List.perm_append_comm_assoc ..

namespace Memory

variable {m : Memory T} {value : T}

/-- Replace a cell, if no identity is lost. -/
def withCell (m : Memory T) (b i : Nat) (cell : Option (Object T)) (constructed : Nat)
    (destroyed : List Nat)
    (once : (destroyed ++ idsOf (setCell m.blocks b i cell)).Perm (List.range constructed)) :
    Memory T where
  blocks := setCell m.blocks b i cell
  nextBlock := m.nextBlock
  constructed := constructed
  destroyed := destroyed
  fresh := by
    have hfresh : ∀ k ∈ m.blocks.map Prod.fst, k < m.nextBlock :=
      List.forall_mem_map.mpr m.fresh
    rw [← map_fst_setCell] at hfresh
    exact List.forall_mem_map.mp hfresh
  apart := by
    rw [map_fst_setCell]
    exact m.apart
  once := once

/-- Remove a block, if no identity is lost. -/
def without (m : Memory T) (b : Nat)
    (once : (m.destroyed ++ idsOf (m.blocks.filter fun e => e.1 ≠ b)).Perm
      (List.range m.constructed)) : Memory T where
  blocks := m.blocks.filter fun e => e.1 ≠ b
  nextBlock := m.nextBlock
  constructed := m.constructed
  destroyed := m.destroyed
  fresh := fun e he => m.fresh e (List.mem_filter.mp he).1
  apart := m.apart.sublist (List.filter_sublist.map _)
  once := once

theorem once_construct (h : cell? m.blocks b i = some none) :
    (m.destroyed ++ idsOf (setCell m.blocks b i (some ⟨m.constructed, value⟩))).Perm
      (List.range (m.constructed + 1)) := by
  have hids : (idsOf (setCell m.blocks b i (some ⟨m.constructed, value⟩))).Perm
      (m.constructed :: idsOf m.blocks) := idsOf_setCell m.apart h
  rw [List.range_succ]
  calc m.destroyed ++ idsOf (setCell m.blocks b i (some ⟨m.constructed, value⟩))
    _ ~ m.destroyed ++ m.constructed :: idsOf m.blocks := .append_left _ hids
    _ ~ m.constructed :: (m.destroyed ++ idsOf m.blocks) := List.perm_middle
    _ ~ m.constructed :: List.range m.constructed := .cons _ m.once
    _ ~ List.range m.constructed ++ [m.constructed] := (List.perm_append_singleton ..).symm

theorem once_destroy {o : Object T} (h : cell? m.blocks b i = some (some o)) :
    (o.id :: m.destroyed ++ idsOf (setCell m.blocks b i none)).Perm (List.range m.constructed) := by
  have hids : (o.id :: idsOf (setCell m.blocks b i none)).Perm (idsOf m.blocks) :=
    idsOf_setCell m.apart h
  calc o.id :: m.destroyed ++ idsOf (setCell m.blocks b i none)
    _ ~ m.destroyed ++ o.id :: idsOf (setCell m.blocks b i none) := List.perm_middle.symm
    _ ~ m.destroyed ++ idsOf m.blocks := .append_left _ hids
    _ ~ List.range m.constructed := m.once

theorem once_assign {o : Object T} (h : cell? m.blocks b i = some (some o)) :
    (m.destroyed ++ idsOf (setCell m.blocks b i (some { o with value := value }))).Perm
      (List.range m.constructed) := by
  have hids : (o.id :: idsOf (setCell m.blocks b i (some { o with value := value }))).Perm
      (o.id :: idsOf m.blocks) := idsOf_setCell m.apart h
  exact (List.Perm.append_left _ hids.cons_inv).trans m.once

theorem once_release (h : m.blocks.lookup b = some block) (hempty : block.ids = []) :
    (m.destroyed ++ idsOf (m.blocks.filter fun e => e.1 ≠ b)).Perm (List.range m.constructed) := by
  obtain ⟨pre, post, hsplit, -⟩ := List.lookup_eq_some_iff.mp h
  have hids : idsOf (m.blocks.filter fun e => e.1 ≠ b) = idsOf m.blocks := by
    rw [hsplit, filter_split (notMem_of_apart (hsplit ▸ m.apart)), idsOf, idsOf,
      List.flatMap_append, List.flatMap_append, List.flatMap_cons, hempty, List.nil_append]
  rw [hids]
  exact m.once

end Memory

/-! ## Operations -/

/-- Construct an object in a cell. -/
def construct (b i : Nat) (value : T) : Exec T PUnit := fun m =>
  match h : cell? m.blocks b i with
  | none => .error .noCell
  | some (some _) => .error .occupied
  | some none =>
      .ok (⟨⟩, m.withCell b i (some ⟨m.constructed, value⟩) (m.constructed + 1) m.destroyed
        (Memory.once_construct h))

/-- Destroy the object in a cell. -/
def destroy (b i : Nat) : Exec T PUnit := fun m =>
  match h : cell? m.blocks b i with
  | none => .error .noCell
  | some none => .error .vacant
  | some (some o) =>
      .ok (⟨⟩, m.withCell b i none m.constructed (o.id :: m.destroyed) (Memory.once_destroy h))

/-- Assign to the object in a cell. -/
def assign (b i : Nat) (value : T) : Exec T PUnit := fun m =>
  match h : cell? m.blocks b i with
  | none => .error .noCell
  | some none => .error .vacant
  | some (some o) =>
      .ok (⟨⟩, m.withCell b i (some { o with value := value }) m.constructed m.destroyed
        (Memory.once_assign h))

/-- The value of the object in a cell. -/
def read (b i : Nat) : Exec T T := fun m =>
  match cell? m.blocks b i with
  | none => .error .noCell
  | some none => .error .vacant
  | some (some o) => .ok (o.value, m)

/-- A new block without objects, unless it is larger than `maxSize`. -/
def newBlock (heap : Bool) (maxSize n : Nat) : Exec T Nat := fun m =>
  if maxSize < n then .error .outOfMemory
  else
    .ok (m.nextBlock, {
      blocks := (m.nextBlock, ⟨heap, List.replicate n none⟩) :: m.blocks
      nextBlock := m.nextBlock + 1
      constructed := m.constructed
      destroyed := m.destroyed
      fresh := by
        refine List.forall_mem_cons.mpr ⟨Nat.lt_succ_self _, fun e he => ?_⟩
        exact Nat.lt_succ_of_lt (m.fresh e he)
      apart := by
        refine List.nodup_cons.mpr ⟨fun h => ?_, m.apart⟩
        obtain ⟨e, he, heq⟩ := List.mem_map.mp h
        exact absurd (heq ▸ m.fresh e he) (Nat.lt_irrefl _)
      once := by
        rw [idsOf, List.flatMap_cons, Block.ids, List.filterMap_replicate_of_none rfl]
        exact m.once })

/-- Release a block of `n` cells. -/
def release (heap : Bool) (b n : Nat) : Exec T PUnit := fun m =>
  match h : m.blocks.lookup b with
  | none => .error .badRelease
  | some block =>
      if block.heap ≠ heap ∨ block.cells.length ≠ n then .error .badRelease
      else if hempty : block.ids = [] then
        .ok (⟨⟩, m.without b (Memory.once_release h hempty))
      else .error .leak

/-! ## Chunks -/

/-- A block as far as it can be observed. -/
structure Chunk (T : Type) where
  block : Nat
  heap : Bool
  cells : List (Option T)

def chunkOf (e : Nat × Block T) : Chunk T :=
  ⟨e.1, e.2.heap, e.2.cells.map (Option.map Object.value)⟩

def viewOf (blocks : List (Nat × Block T)) : Multiset (Chunk T) := ↑(blocks.map chunkOf)

/-- The chunks that a memory consists of. -/
def Memory.view (m : Memory T) : Multiset (Chunk T) := viewOf m.blocks

variable {m : Memory T} {heap : Bool} {cells : List (Option T)} {F : Multiset (Chunk T)}

theorem view_split (hv : m.view = {⟨b, heap, cells⟩} + F) : ∃ pre block post,
    m.blocks = pre ++ (b, block) :: post ∧ chunkOf (b, block) = ⟨b, heap, cells⟩ ∧
      viewOf (pre ++ post) = F ∧ b ∉ (pre ++ post).map Prod.fst := by
  have hmem : (⟨b, heap, cells⟩ : Chunk T) ∈ m.view := by
    rw [hv]
    exact Multiset.mem_add.mpr (.inl (Multiset.mem_singleton_self _))
  obtain ⟨⟨b', block⟩, he, heq⟩ := List.mem_map.mp (Multiset.mem_coe.mp hmem)
  obtain rfl : b' = b := congrArg Chunk.block heq
  obtain ⟨pre, post, hsplit⟩ := List.append_of_mem he
  refine ⟨pre, block, post, hsplit, heq, ?_, notMem_of_apart (hsplit ▸ m.apart)⟩
  have hview : m.view = {⟨b', heap, cells⟩} + viewOf (pre ++ post) := by
    rw [Memory.view, hsplit, viewOf, List.map_append, List.map_cons, heq, viewOf,
      Multiset.singleton_add, Multiset.cons_coe, Multiset.coe_eq_coe, List.map_append]
    exact List.perm_middle
  exact add_left_cancel (hview.symm.trans hv)

/-- Different chunks are different blocks. -/
theorem ne_of_view {p q : Chunk T} (hv : m.view = {p} + F) (hq : q ∈ F) :
    p.block ≠ q.block := by
  obtain ⟨pre, block, post, -, -, hrest, hnot⟩ := view_split hv
  rw [← hrest] at hq
  obtain ⟨e, he, rfl⟩ := List.mem_map.mp (Multiset.mem_coe.mp hq)
  intro heq
  exact hnot (heq ▸ List.mem_map_of_mem he)

/-- Every object has been destroyed once when all blocks have been released. -/
theorem perm_destroyed (hv : m.view = 0) : m.destroyed.Perm (List.range m.constructed) := by
  have hblocks : m.blocks = [] := List.map_eq_nil_iff.mp ((Multiset.coe_eq_zero _).mp hv)
  have honce := m.once
  rwa [hblocks, idsOf, List.flatMap_nil, List.append_nil] at honce

theorem nodup_destroyed (m : Memory T) : m.destroyed.Nodup := by
  have hnodup := m.once.nodup_iff.mpr List.nodup_range
  exact (List.nodup_append.mp hnodup).1

section Operations

variable {allowed : Fault → Prop} {i n maxSize : Nat} {v w : T}

theorem cell?_of_view (hv : m.view = {⟨b, heap, cells⟩} + F) {cell : Option T}
    (hi : cells[i]? = some cell) :
    ∃ old, cell? m.blocks b i = some old ∧ old.map Object.value = cell := by
  obtain ⟨pre, block, post, hsplit, heq, -, hnot⟩ := view_split hv
  have hcells : block.cells.map (Option.map Object.value) = cells := congrArg Chunk.cells heq
  rw [← hcells, List.getElem?_map] at hi
  obtain ⟨old, hold, rfl⟩ := Option.map_eq_some_iff.mp hi
  refine ⟨old, ?_, rfl⟩
  rw [cell?, hsplit, lookup_split hnot]
  exact hold

theorem view_setCell (hv : m.view = {⟨b, heap, cells⟩} + F) (new : Option (Object T)) :
    viewOf (setCell m.blocks b i new) =
      {⟨b, heap, cells.set i (new.map Object.value)⟩} + F := by
  obtain ⟨pre, block, post, hsplit, heq, hrest, hnot⟩ := view_split hv
  have hcells : block.cells.map (Option.map Object.value) = cells := congrArg Chunk.cells heq
  have hheap : block.heap = heap := congrArg Chunk.heap heq
  rw [hsplit, setCell_split hnot, viewOf, List.map_append, List.map_cons, ← hrest, viewOf,
    Multiset.singleton_add, Multiset.cons_coe, Multiset.coe_eq_coe, List.map_append, ← hcells,
    ← hheap, ← List.map_set]
  exact List.perm_middle

theorem ends_construct (hv : m.view = {⟨b, heap, cells⟩} + F) (hi : cells[i]? = some none) :
    Ends allowed (construct b i v) m fun _ m' =>
      m'.view = {⟨b, heap, cells.set i (some v)⟩} + F := by
  obtain ⟨old, hold, hnone⟩ := cell?_of_view hv hi
  obtain rfl := Option.map_eq_none_iff.mp hnone
  have hrun : construct b i v m = .ok (⟨⟩, m.withCell b i (some ⟨m.constructed, v⟩)
      (m.constructed + 1) m.destroyed (Memory.once_construct hold)) := by
    rw [construct]
    split
    next h => exact nomatch hold.symm.trans h
    next h => exact nomatch hold.symm.trans h
    next => rfl
  rw [Ends, hrun]
  exact view_setCell hv _

theorem ends_destroy (hv : m.view = {⟨b, heap, cells⟩} + F) (hi : cells[i]? = some (some v)) :
    Ends allowed (destroy b i) m fun _ m' =>
      m'.view = {⟨b, heap, cells.set i none⟩} + F := by
  obtain ⟨old, hold, hsome⟩ := cell?_of_view hv hi
  obtain ⟨o, rfl, -⟩ := Option.map_eq_some_iff.mp hsome
  have hrun : destroy b i m = .ok (⟨⟩, m.withCell b i none m.constructed (o.id :: m.destroyed)
      (Memory.once_destroy hold)) := by
    rw [destroy]
    split
    next h => exact nomatch hold.symm.trans h
    next h => exact nomatch hold.symm.trans h
    next h =>
      cases hold.symm.trans h
      rfl
  rw [Ends, hrun]
  exact view_setCell hv _

theorem ends_assign (hv : m.view = {⟨b, heap, cells⟩} + F) (hi : cells[i]? = some (some v)) :
    Ends allowed (assign b i w) m fun _ m' =>
      m'.view = {⟨b, heap, cells.set i (some w)⟩} + F := by
  obtain ⟨old, hold, hsome⟩ := cell?_of_view hv hi
  obtain ⟨o, rfl, -⟩ := Option.map_eq_some_iff.mp hsome
  have hrun : assign b i w m = .ok (⟨⟩, m.withCell b i (some { o with value := w }) m.constructed
      m.destroyed (Memory.once_assign hold)) := by
    rw [assign]
    split
    next h => exact nomatch hold.symm.trans h
    next h => exact nomatch hold.symm.trans h
    next h =>
      cases hold.symm.trans h
      rfl
  rw [Ends, hrun]
  exact view_setCell hv _

theorem read_eq (hv : m.view = {⟨b, heap, cells⟩} + F) (hi : cells[i]? = some (some v)) :
    read b i m = .ok (v, m) := by
  obtain ⟨old, hold, hsome⟩ := cell?_of_view hv hi
  obtain ⟨o, rfl, rfl⟩ := Option.map_eq_some_iff.mp hsome
  rw [read, hold]

theorem ends_read (hv : m.view = {⟨b, heap, cells⟩} + F) (hi : cells[i]? = some (some v)) :
    Ends allowed (read b i) m fun w m' => w = v ∧ m' = m := by
  rw [Ends, read_eq hv hi]
  exact ⟨rfl, rfl⟩

theorem ends_newBlock (hallowed : maxSize < n → allowed .outOfMemory) :
    Ends allowed (newBlock heap maxSize n) m fun b m' =>
      m'.view = {⟨b, heap, List.replicate n none⟩} + m.view ∧ n ≤ maxSize := by
  rw [Ends, newBlock]
  by_cases hn : maxSize < n
  · rw [if_pos hn]
    exact hallowed hn
  · rw [if_neg hn]
    refine ⟨?_, Nat.not_lt.mp hn⟩
    rw [Memory.view, viewOf, List.map_cons, ← Multiset.cons_coe, Multiset.singleton_add, chunkOf,
      List.map_replicate]
    rfl

theorem ends_release (hv : m.view = {⟨b, heap, List.replicate n none⟩} + F) :
    Ends allowed (release heap b n) m fun _ m' => m'.view = F := by
  obtain ⟨pre, block, post, hsplit, heq, hrest, hnot⟩ := view_split hv
  have hcells : block.cells.map (Option.map Object.value) = List.replicate n none :=
    congrArg Chunk.cells heq
  have hheap : block.heap = heap := congrArg Chunk.heap heq
  have hlookup : m.blocks.lookup b = some block := hsplit ▸ lookup_split hnot
  have hlength : block.cells.length = n := by
    rw [← List.length_map, hcells, List.length_replicate]
  have hids : block.ids = [] := by
    rw [Block.ids, List.filterMap_eq_nil_iff]
    intro cell hcell
    have hmem := List.mem_map_of_mem (f := Option.map Object.value) hcell
    rw [hcells] at hmem
    rw [Option.map_eq_none_iff.mp (List.eq_of_mem_replicate hmem)]
    rfl
  have hrun : release heap b n m = .ok (⟨⟩, m.without b (Memory.once_release hlookup hids)) := by
    rw [release]
    split
    next h => exact nomatch hlookup.symm.trans h
    next h =>
      cases hlookup.symm.trans h
      rw [if_neg (by simp [hheap, hlength]), dif_pos hids]
  rw [Ends, hrun]
  show viewOf (m.blocks.filter fun e => e.1 ≠ b) = F
  rw [hsplit, filter_split hnot]
  exact hrest

end Operations

end Storage
