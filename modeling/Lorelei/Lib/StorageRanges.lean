import Lorelei.Lib.Storage

/-!
# Ranges of cells

Loops over the cells of one or two blocks. Each is described by the cells it works on, between
a front and a rest which it leaves alone.
-/

namespace Storage

variable {T α : Type} {allowed : Fault → Prop} {m : Memory T} {b c i n : Nat} {heap heap' : Bool}
  {front front' rest rest' : List (Option T)} {vs ws : List T} {v w : T}
  {F : Multiset (Chunk T)}

/-! ## Loops -/

/-- `for (; i < last; ++i)` with `n` rounds. -/
def forRange (body : Nat → Exec T PUnit) : (i n : Nat) → Exec T PUnit
  | _, 0 => pure ⟨⟩
  | i, n + 1 => do
      body i
      forRange body (i + 1) n

/-- The value of an object that is moved from. -/
def take (residue : T → T) (b i : Nat) : Exec T T := do
  let value ← read b i
  assign b i (residue value)
  return value

/-- Destroy a range. -/
def destroyCells (b i n : Nat) : Exec T PUnit := forRange (destroy b) i n

/-- Construct copies of one value. -/
def fillCells (value : T) (b i n : Nat) : Exec T PUnit :=
  forRange (fun i => construct b i value) i n

/-- Construct copies of the objects of another block. -/
def copyCells (b c i n : Nat) : Exec T PUnit :=
  forRange (fun i => do construct c i (← read b i)) i n

/-- Construct objects from those of another block. -/
def moveCells (residue : T → T) (b c i n : Nat) : Exec T PUnit :=
  forRange (fun i => do construct c i (← take residue b i)) i n

/-- Move objects to another block, and destroy what is left of them. -/
def relocateCells (residue : T → T) (b c i n : Nat) : Exec T PUnit :=
  forRange (fun i => do
    construct c i (← take residue b i)
    destroy b i) i n

/-- `std::swap` of objects at the same places. -/
def swapCells (b c i n : Nat) : Exec T PUnit :=
  forRange (fun i => do
    let v ← read b i
    let w ← read c i
    assign b i w
    assign c i v) i n

/-- `std::move` of a range to cells in front of it. -/
def shiftCells (residue : T → T) (b first last dest : Nat) : Exec T PUnit :=
  forRange (fun j => do assign b (dest + j) (← take residue b (first + j))) 0 (last - first)

/-- The values of a range. -/
def readCells (b : Nat) : (i n : Nat) → Exec T (List T)
  | _, 0 => return []
  | i, n + 1 => do
      let value ← read b i
      return value :: (← readCells b (i + 1) n)

/-- Assign to the objects of a range. -/
def assignCells (b : Nat) : (i : Nat) → List T → Exec T PUnit
  | _, [] => return ⟨⟩
  | i, value :: values => do
      assign b i value
      assignCells b (i + 1) values

/-- `std::rotate`. -/
def rotateCells (b first middle last : Nat) : Exec T PUnit := do
  let values ← readCells b first (last - first)
  assignCells b first (values.drop (middle - first) ++ values.take (middle - first))

/-! ## Cells behind a front -/

theorem get_front (cell : Option T) (hi : i = front.length) :
    (front ++ cell :: rest)[i]? = some cell := by
  simp [hi]

theorem set_front (cell new : Option T) (hi : i = front.length) :
    (front ++ cell :: rest).set i new = front ++ new :: rest := by
  simp [hi]

theorem length_concat (cell : Option T) (hi : i = front.length) :
    i + 1 = (front ++ [cell]).length := by
  simp [hi]

/-! ## What the loops do -/

theorem ends_take {residue : T → T} (hv : m.view = {⟨b, heap, front ++ some v :: rest⟩} + F)
    (hi : i = front.length) :
    Ends allowed (take residue b i) m fun w m' =>
      w = v ∧ m'.view = {⟨b, heap, front ++ some (residue v) :: rest⟩} + F := by
  refine (ends_read hv (get_front _ hi)).bind ?_
  rintro _ _ ⟨rfl, rfl⟩
  refine (ends_assign hv (get_front _ hi)).bind fun _ m' hv' => ?_
  rw [set_front _ _ hi] at hv'
  exact ends_pure ⟨rfl, hv'⟩

/-- A loop that does the same to every cell; the cells are given by values of any kind. -/
theorem ends_forRange {body : Nat → Exec T PUnit} {xs : List α} {p q : α → Option T}
    (hbody : ∀ x i m front rest, i = front.length → m.view = {⟨b, heap, front ++ p x :: rest⟩} + F →
      Ends allowed (body i) m fun _ m' => m'.view = {⟨b, heap, front ++ q x :: rest⟩} + F)
    (hv : m.view = {⟨b, heap, front ++ (xs.map p ++ rest)⟩} + F) (hi : i = front.length) :
    Ends allowed (forRange body i xs.length) m fun _ m' =>
      m'.view = {⟨b, heap, front ++ (xs.map q ++ rest)⟩} + F := by
  induction xs generalizing front i m with
  | nil => exact ends_pure hv
  | cons x xs ih =>
      refine (hbody x i m front _ hi hv).bind fun _ m' hv' => ?_
      rw [List.append_cons] at hv'
      refine (ih hv' (length_concat _ hi)).mono fun _ m'' hv'' => ?_
      rwa [← List.append_cons] at hv''

/-- A loop over the same range of two blocks. -/
theorem ends_forRange₂ {body : Nat → Exec T PUnit} {xs : List α} {p q p' q' : α → Option T}
    (hbody : ∀ x i m front rest front' rest', i = front.length → i = front'.length →
      m.view = {⟨b, heap, front ++ p x :: rest⟩} + ({⟨c, heap', front' ++ p' x :: rest'⟩} + F) →
      Ends allowed (body i) m fun _ m' => m'.view =
        {⟨b, heap, front ++ q x :: rest⟩} + ({⟨c, heap', front' ++ q' x :: rest'⟩} + F))
    (hv : m.view = {⟨b, heap, front ++ (xs.map p ++ rest)⟩} +
      ({⟨c, heap', front' ++ (xs.map p' ++ rest')⟩} + F))
    (hi : i = front.length) (hi' : i = front'.length) :
    Ends allowed (forRange body i xs.length) m fun _ m' => m'.view =
      {⟨b, heap, front ++ (xs.map q ++ rest)⟩} +
        ({⟨c, heap', front' ++ (xs.map q' ++ rest')⟩} + F) := by
  induction xs generalizing front front' i m with
  | nil => exact ends_pure hv
  | cons x xs ih =>
      refine (hbody x i m front _ front' _ hi hi' hv).bind fun _ m' hv' => ?_
      rw [List.append_cons, List.append_cons front'] at hv'
      refine (ih hv' (length_concat _ hi) (length_concat _ hi')).mono fun _ m'' hv'' => ?_
      rwa [← List.append_cons, ← List.append_cons] at hv''

theorem ends_destroyCells (hv : m.view = {⟨b, heap, front ++ (vs.map some ++ rest)⟩} + F)
    (hi : i = front.length) :
    Ends allowed (destroyCells b i vs.length) m fun _ m' =>
      m'.view = {⟨b, heap, front ++ (List.replicate vs.length none ++ rest)⟩} + F := by
  rw [← List.map_const']
  refine ends_forRange (fun v i m front rest hi hv => ?_) hv hi
  refine (ends_destroy hv (get_front _ hi)).mono fun _ m' hv' => ?_
  rwa [set_front _ _ hi] at hv'

/-- A loop that constructs the same value in every cell. -/
theorem ends_fill {body : Nat → Exec T PUnit}
    (hbody : ∀ i m front rest, i = front.length →
      m.view = {⟨b, heap, front ++ none :: rest⟩} + F →
      Ends allowed (body i) m fun _ m' => m'.view = {⟨b, heap, front ++ some v :: rest⟩} + F)
    (hv : m.view = {⟨b, heap, front ++ (List.replicate n none ++ rest)⟩} + F)
    (hi : i = front.length) :
    Ends allowed (forRange body i n) m fun _ m' =>
      m'.view = {⟨b, heap, front ++ ((List.replicate n v).map some ++ rest)⟩} + F := by
  have hcells : List.replicate n none = (List.replicate n v).map fun _ => (none : Option T) := by
    rw [List.map_replicate]
  rw [hcells] at hv
  have hrun := ends_forRange (q := fun _ => some v) (fun _ => hbody) hv hi
  rw [List.length_replicate, List.map_replicate] at hrun
  rwa [List.map_replicate]

theorem ends_fillCells
    (hv : m.view = {⟨b, heap, front ++ (List.replicate n none ++ rest)⟩} + F)
    (hi : i = front.length) :
    Ends allowed (fillCells v b i n) m fun _ m' =>
      m'.view = {⟨b, heap, front ++ ((List.replicate n v).map some ++ rest)⟩} + F := by
  refine ends_fill (fun i m front rest hi hv => ?_) hv hi
  refine (ends_construct hv (get_front _ hi)).mono fun _ m' hv' => ?_
  rwa [set_front _ _ hi] at hv'

section Two

variable {residue : T → T}

theorem ends_copyCells (hv : m.view = {⟨b, heap, front ++ (vs.map some ++ rest)⟩} +
      ({⟨c, heap', front' ++ (List.replicate vs.length none ++ rest')⟩} + F))
    (hi : i = front.length) (hi' : i = front'.length) :
    Ends allowed (copyCells b c i vs.length) m fun _ m' =>
      m'.view = {⟨b, heap, front ++ (vs.map some ++ rest)⟩} +
        ({⟨c, heap', front' ++ (vs.map some ++ rest')⟩} + F) := by
  rw [← List.map_const'] at hv
  refine ends_forRange₂ (fun v i m front rest front' rest' hi hi' hv => ?_) hv hi hi'
  refine (ends_read hv (get_front _ hi)).bind ?_
  rintro _ _ ⟨rfl, rfl⟩
  rw [add_left_comm] at hv
  refine (ends_construct hv (get_front _ hi')).mono fun _ m' hv' => ?_
  rwa [set_front _ _ hi', add_left_comm] at hv'

theorem ends_moveCells (hv : m.view = {⟨b, heap, front ++ (vs.map some ++ rest)⟩} +
      ({⟨c, heap', front' ++ (List.replicate vs.length none ++ rest')⟩} + F))
    (hi : i = front.length) (hi' : i = front'.length) :
    Ends allowed (moveCells residue b c i vs.length) m fun _ m' =>
      m'.view = {⟨b, heap, front ++ ((vs.map residue).map some ++ rest)⟩} +
        ({⟨c, heap', front' ++ (vs.map some ++ rest')⟩} + F) := by
  rw [← List.map_const'] at hv
  rw [List.map_map]
  refine ends_forRange₂ (fun v i m front rest front' rest' hi hi' hv => ?_) hv hi hi'
  refine (ends_take hv hi).bind ?_
  rintro _ m' ⟨rfl, hv'⟩
  rw [add_left_comm] at hv'
  refine (ends_construct hv' (get_front _ hi')).mono fun _ m'' hv'' => ?_
  rwa [set_front _ _ hi', add_left_comm] at hv''

theorem ends_relocateCells (hv : m.view = {⟨b, heap, front ++ (vs.map some ++ rest)⟩} +
      ({⟨c, heap', front' ++ (List.replicate vs.length none ++ rest')⟩} + F))
    (hi : i = front.length) (hi' : i = front'.length) :
    Ends allowed (relocateCells residue b c i vs.length) m fun _ m' =>
      m'.view = {⟨b, heap, front ++ (List.replicate vs.length none ++ rest)⟩} +
        ({⟨c, heap', front' ++ (vs.map some ++ rest')⟩} + F) := by
  rw [← List.map_const'] at hv ⊢
  refine ends_forRange₂ (fun v i m front rest front' rest' hi hi' hv => ?_) hv hi hi'
  refine (ends_take hv hi).bind ?_
  rintro _ m' ⟨rfl, hv'⟩
  rw [add_left_comm] at hv'
  refine (ends_construct hv' (get_front _ hi')).bind fun _ m'' hv'' => ?_
  rw [set_front _ _ hi', add_left_comm] at hv''
  refine (ends_destroy hv'' (get_front _ hi)).mono fun _ m₃ hv₃ => ?_
  rwa [set_front _ _ hi] at hv₃

theorem ends_swapCells (hv : m.view = {⟨b, heap, front ++ (vs.map some ++ rest)⟩} +
      ({⟨c, heap', front' ++ (ws.map some ++ rest')⟩} + F))
    (hlength : vs.length = ws.length) (hi : i = front.length) (hi' : i = front'.length) :
    Ends allowed (swapCells b c i vs.length) m fun _ m' =>
      m'.view = {⟨b, heap, front ++ (ws.map some ++ rest)⟩} +
        ({⟨c, heap', front' ++ (vs.map some ++ rest')⟩} + F) := by
  have hvs : vs = (vs.zip ws).map Prod.fst := (List.map_fst_zip hlength.le).symm
  have hws : ws = (vs.zip ws).map Prod.snd := (List.map_snd_zip hlength.ge).symm
  generalize vs.zip ws = xs at hvs hws
  subst hvs hws
  rw [List.length_map, List.map_map, List.map_map] at *
  refine ends_forRange₂ (fun x i m front rest front' rest' hi hi' hv => ?_) hv hi hi'
  refine (ends_read hv (get_front _ hi)).bind ?_
  rintro _ _ ⟨rfl, rfl⟩
  rw [add_left_comm] at hv
  refine (ends_read hv (get_front _ hi')).bind ?_
  rintro _ _ ⟨rfl, rfl⟩
  rw [add_left_comm] at hv
  refine (ends_assign hv (get_front _ hi)).bind fun _ m' hv' => ?_
  rw [set_front _ _ hi, add_left_comm] at hv'
  refine (ends_assign hv' (get_front _ hi')).mono fun _ m'' hv'' => ?_
  rwa [set_front _ _ hi', add_left_comm] at hv''

end Two

/-! ## Within a block -/

theorem ends_readCells (hv : m.view = {⟨b, heap, front ++ (vs.map some ++ rest)⟩} + F)
    (hi : i = front.length) :
    Ends allowed (readCells b i vs.length) m fun ws m' => ws = vs ∧ m' = m := by
  induction vs generalizing front i with
  | nil => exact ends_pure ⟨rfl, rfl⟩
  | cons v vs ih =>
      refine (ends_read hv (get_front _ hi)).bind ?_
      rintro _ _ ⟨rfl, rfl⟩
      rw [List.map_cons, List.cons_append, List.append_cons] at hv
      refine (ih hv (length_concat _ hi)).bind ?_
      rintro _ _ ⟨rfl, rfl⟩
      exact ends_pure ⟨rfl, rfl⟩

theorem ends_assignCells (hv : m.view = {⟨b, heap, front ++ (vs.map some ++ rest)⟩} + F)
    (hlength : vs.length = ws.length) (hi : i = front.length) :
    Ends allowed (assignCells b i ws) m fun _ m' =>
      m'.view = {⟨b, heap, front ++ (ws.map some ++ rest)⟩} + F := by
  induction ws generalizing vs front i m with
  | nil =>
      rw [List.length_eq_zero_iff.mp hlength] at hv
      exact ends_pure hv
  | cons w ws ih =>
      cases vs with
      | nil => exact nomatch hlength
      | cons v vs =>
          refine (ends_assign hv (get_front _ hi)).bind fun _ m' hv' => ?_
          rw [List.map_cons, List.cons_append, set_front _ _ hi, List.append_cons] at hv'
          refine (ih hv' (Nat.succ.inj hlength) (length_concat _ hi)).mono fun _ m'' hv'' => ?_
          rwa [← List.append_cons] at hv''

theorem ends_rotateCells {first middle last : Nat}
    (hv : m.view = {⟨b, heap, front ++ ((vs ++ ws).map some ++ rest)⟩} + F)
    (hfirst : first = front.length) (hmiddle : middle = first + vs.length)
    (hlast : last = middle + ws.length) :
    Ends allowed (rotateCells b first middle last) m fun _ m' =>
      m'.view = {⟨b, heap, front ++ ((ws ++ vs).map some ++ rest)⟩} + F := by
  have hn : last - first = (vs ++ ws).length := by
    rw [List.length_append]
    omega
  have hk : middle - first = vs.length := by
    omega
  rw [rotateCells, hn, hk]
  refine (ends_readCells hv hfirst).bind ?_
  rintro _ _ ⟨rfl, rfl⟩
  rw [List.drop_left, List.take_left]
  refine ends_assignCells hv ?_ hfirst
  rw [List.length_append, List.length_append, Nat.add_comm]

/-- The gap, as long as before, ends up behind the range. -/
theorem ends_shift {residue : T → T} {first dest j : Nat} {gap : List T}
    (hv : m.view = {⟨b, heap, front ++ (gap.map some ++ (vs.map some ++ rest))⟩} + F)
    (hdest : dest + j = front.length) (hgap : 0 < gap.length)
    (hfirst : first + j = front.length + gap.length) :
    Ends allowed
      (forRange (fun j => do assign b (dest + j) (← take residue b (first + j))) j vs.length) m
      fun _ m' => ∃ left : List T, left.length = gap.length ∧
        m'.view = {⟨b, heap, front ++ (vs.map some ++ (left.map some ++ rest))⟩} + F := by
  induction vs generalizing front gap j m with
  | nil => exact ends_pure ⟨gap, rfl, hv⟩
  | cons v vs ih =>
      cases gap with
      | nil => exact absurd hgap (Nat.lt_irrefl _)
      | cons g gap =>
          refine Ends.bind (Q := fun _ m' => m'.view = {⟨b, heap, (front ++ [some v]) ++
            ((gap ++ [residue v]).map some ++ (vs.map some ++ rest))⟩} + F) ?_ ?_
          · rw [← List.append_assoc] at hv
            refine (ends_take hv (by simp [hfirst])).bind ?_
            rintro _ m' ⟨rfl, hv'⟩
            rw [List.map_cons, List.append_assoc, List.cons_append] at hv'
            refine (ends_assign hv' (get_front _ hdest)).mono fun _ m'' hv'' => ?_
            rw [set_front _ _ hdest] at hv''
            rw [hv'', List.map_append, List.map_singleton, List.append_assoc, List.append_assoc,
              List.singleton_append, List.singleton_append]
            rfl
          · intro _ m' hv'
            have hlength : (gap ++ [residue v]).length = (g :: gap).length := by
              simp
            have hnext := length_concat (i := dest + j) (some v) hdest
            refine (ih hv' hnext (by simp) ?_).mono fun _ m'' => ?_
            · simp only [List.length_append, List.length_cons, List.length_nil] at hfirst ⊢
              omega
            · rintro ⟨left, hleft, hv''⟩
              rw [← List.append_cons] at hv''
              exact ⟨left, hleft.trans hlength, hv''⟩

theorem ends_shiftCells {residue : T → T} {first last dest : Nat} {gap : List T}
    (hv : m.view = {⟨b, heap, front ++ (gap.map some ++ (vs.map some ++ rest))⟩} + F)
    (hdest : dest = front.length) (hgap : 0 < gap.length) (hfirst : first = dest + gap.length)
    (hlast : last = first + vs.length) :
    Ends allowed (shiftCells residue b first last dest) m fun _ m' =>
      ∃ left : List T, left.length = gap.length ∧
        m'.view = {⟨b, heap, front ++ (vs.map some ++ (left.map some ++ rest))⟩} + F := by
  rw [shiftCells, hlast, Nat.add_sub_cancel_left]
  exact ends_shift hv hdest hgap (hfirst.trans (by rw [hdest]))

end Storage
