import Mathlib.Data.Set.Basic
import Mathlib.Order.Basic
import Mathlib.Data.List.Basic

/-!
# Tables that are joined by position

Two enumerations of sets in increasing order, joined by position.  The same position
holds the same element, as far as both go, if and only if the elements that only one
of the sets has come after all elements of the other (`agree_iff_aligned`): one
enumeration is then the beginning of the other.
-/

namespace SortedTable

variable {α : Type*}

/-- What only one of two sets has comes after everything the other has. -/
def Aligned [LT α] (s t : Set α) : Prop :=
  (∀ a ∈ s, a ∉ t → ∀ b ∈ t, b < a) ∧ (∀ b ∈ t, b ∉ s → ∀ a ∈ s, a < b)

/-- Positions that both lists have hold the same element. -/
def Agree (l l' : List α) : Prop :=
  ∀ (i : Nat) (x y : α), l[i]? = some x → l'[i]? = some y → x = y

variable {l l' : List α} {a b : α}

theorem agree_nil_left : Agree [] l' := by
  intro i x y h
  simp at h

theorem agree_nil_right : Agree l [] := by
  intro i x y _ h
  simp at h

theorem agree_cons : Agree (a :: l) (b :: l') ↔ a = b ∧ Agree l l' := by
  constructor
  · intro h
    exact ⟨h 0 a b rfl rfl, fun i x y hx hy => h (i + 1) x y hx hy⟩
  · rintro ⟨rfl, h⟩ i x y hx hy
    cases i with
    | zero => exact Option.some.inj (hx.symm.trans hy)
    | succ i => exact h i x y hx hy

variable [LinearOrder α]

/-- Aligned enumerations that are not empty start with the same element. -/
theorem head_eq_of_aligned (hl : (a :: l).Pairwise (· < ·)) (hl' : (b :: l').Pairwise (· < ·))
    (h : Aligned {x | x ∈ a :: l} {x | x ∈ b :: l'}) : a = b := by
  by_contra hne
  have hfirst : ∀ x ∈ l, a < x := (List.pairwise_cons.mp hl).1
  have hfirst' : ∀ x ∈ l', b < x := (List.pairwise_cons.mp hl').1
  -- the smaller of the two heads is in its own list only, and not behind the other list
  rcases lt_or_gt_of_ne hne with hlt | hgt
  · have hnot : a ∉ b :: l' := by
      intro hmem
      rcases List.mem_cons.mp hmem with rfl | hmem
      · exact hne rfl
      · exact lt_asymm hlt (hfirst' a hmem)
    exact lt_asymm hlt (h.1 a List.mem_cons_self hnot b List.mem_cons_self)
  · have hnot : b ∉ a :: l := by
      intro hmem
      rcases List.mem_cons.mp hmem with rfl | hmem
      · exact hne rfl
      · exact lt_asymm hgt (hfirst b hmem)
    exact lt_asymm hgt (h.2 b List.mem_cons_self hnot a List.mem_cons_self)

/-- A common head does not matter. -/
theorem aligned_cons (hl : (a :: l).Pairwise (· < ·)) (hl' : (a :: l').Pairwise (· < ·)) :
    Aligned {x | x ∈ a :: l} {x | x ∈ a :: l'} ↔ Aligned {x | x ∈ l} {x | x ∈ l'} := by
  have hfirst : ∀ x ∈ l, a < x := (List.pairwise_cons.mp hl).1
  have hfirst' : ∀ x ∈ l', a < x := (List.pairwise_cons.mp hl').1
  have hside : ∀ {s t : List α}, (∀ x ∈ s, a < x) →
      ((∀ x ∈ a :: s, x ∉ a :: t → ∀ y ∈ a :: t, y < x) ↔ ∀ x ∈ s, x ∉ t → ∀ y ∈ t, y < x) := by
    intro s t hs
    constructor
    · intro h x hx hnot y hy
      refine h x (List.mem_cons_of_mem a hx) (fun hmem => ?_) y (List.mem_cons_of_mem a hy)
      rcases List.mem_cons.mp hmem with rfl | hmem
      · exact lt_irrefl x (hs x hx)
      · exact hnot hmem
    · intro h x hx hnot y hy
      rcases List.mem_cons.mp hx with rfl | hxs
      · exact absurd List.mem_cons_self hnot
      · rcases List.mem_cons.mp hy with rfl | hyt
        · exact hs x hxs
        · exact h x hxs (fun hmem => hnot (List.mem_cons_of_mem a hmem)) y hyt
  exact and_congr (hside hfirst) (hside hfirst')

theorem agree_iff_aligned (hl : l.Pairwise (· < ·)) (hl' : l'.Pairwise (· < ·)) :
    Agree l l' ↔ Aligned {x | x ∈ l} {x | x ∈ l'} := by
  induction l generalizing l' with
  | nil =>
      constructor
      · intro
        constructor <;> simp
      · intro
        exact agree_nil_left
  | cons a l ih =>
      cases l' with
      | nil =>
          constructor
          · intro
            constructor <;> simp
          · intro
            exact agree_nil_right
      | cons b l' =>
          rw [agree_cons]
          constructor
          · rintro ⟨rfl, h⟩
            exact (aligned_cons hl hl').mpr ((ih hl.of_cons hl'.of_cons).mp h)
          · intro h
            obtain rfl := head_eq_of_aligned hl hl' h
            exact ⟨rfl, (ih hl.of_cons hl'.of_cons).mpr ((aligned_cons hl hl').mp h)⟩

end SortedTable
