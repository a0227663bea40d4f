import Mathlib.Data.Finset.Card
import Mathlib.Data.Finset.Dedup

/-!
# Interning

An interning table gives each value a slot of its own: the first request of a value
takes the next free slot, later requests find it.  The table is the list of the
values in the order of their first request, and a value's slot is its position.

Slots are never given up, so a slot stays a value's own for ever, and as many slots
are taken as there are distinct values.
-/

namespace Interning

variable {α : Type*} [DecidableEq α] {ds es : List α} {a b : α}

/-- The table after a request for `a`. -/
def intern (ds : List α) (a : α) : List α := if a ∈ ds then ds else ds ++ [a]

/-- The table after a sequence of requests. -/
def internAll (ds : List α) (as : List α) : List α := as.foldl intern ds

/-! ## One request -/

theorem intern_of_mem (h : a ∈ ds) : intern ds a = ds := if_pos h

theorem intern_of_notMem (h : a ∉ ds) : intern ds a = ds ++ [a] := if_neg h

theorem isPrefix_intern (ds : List α) (a : α) : ds <+: intern ds a := by
  by_cases h : a ∈ ds
  · rw [intern_of_mem h]
  · rw [intern_of_notMem h]
    exact List.prefix_append ds [a]

@[simp] theorem mem_intern : b ∈ intern ds a ↔ b ∈ ds ∨ b = a := by
  by_cases h : a ∈ ds
  · rw [intern_of_mem h]
    constructor
    · exact Or.inl
    · rintro (hb | rfl)
      · exact hb
      · exact h
  · simp [intern_of_notMem h]

theorem nodup_intern (h : ds.Nodup) : (intern ds a).Nodup := by
  by_cases ha : a ∈ ds
  · rwa [intern_of_mem ha]
  · rw [intern_of_notMem ha]
    exact List.nodup_append.mpr ⟨h, List.nodup_singleton a, by
      rintro b hb c hc rfl
      exact ha (List.mem_singleton.mp hc ▸ hb)⟩

theorem length_intern_le : (intern ds a).length ≤ ds.length + 1 := by
  by_cases h : a ∈ ds
  · rw [intern_of_mem h]
    exact Nat.le_succ _
  · rw [intern_of_notMem h, List.length_append, List.length_singleton]

/-- A value that is new takes the first free slot, and any other keeps its own. -/
theorem idxOf_intern : (intern ds a).idxOf a = ds.idxOf a := by
  by_cases h : a ∈ ds
  · rw [intern_of_mem h]
  · rw [intern_of_notMem h, List.idxOf_append_of_notMem h, List.idxOf_eq_length h]
    simp

/-- A slot stays a value's own in every longer table. -/
theorem idxOf_eq_of_isPrefix (h : ds <+: es) (ha : a ∈ ds) : es.idxOf a = ds.idxOf a := by
  obtain ⟨rest, rfl⟩ := h
  exact List.idxOf_append_of_mem ha

/-! ## A sequence of requests -/

@[simp] theorem internAll_nil (ds : List α) : internAll ds [] = ds := rfl

@[simp] theorem internAll_cons (ds : List α) (a : α) (as : List α) :
    internAll ds (a :: as) = internAll (intern ds a) as := rfl

theorem internAll_append (ds as bs : List α) :
    internAll ds (as ++ bs) = internAll (internAll ds as) bs :=
  List.foldl_append

theorem isPrefix_internAll (ds as : List α) : ds <+: internAll ds as := by
  induction as generalizing ds with
  | nil => exact List.prefix_rfl
  | cons a as ih => exact (isPrefix_intern ds a).trans (ih (intern ds a))

theorem mem_internAll {as : List α} : b ∈ internAll ds as ↔ b ∈ ds ∨ b ∈ as := by
  induction as generalizing ds with
  | nil => simp
  | cons a as ih => simp [ih, or_assoc]

theorem nodup_internAll {as : List α} (h : ds.Nodup) : (internAll ds as).Nodup := by
  induction as generalizing ds with
  | nil => exact h
  | cons a as ih => exact ih (nodup_intern h)

/-- As many slots are taken as there are distinct values. -/
theorem length_internAll (as : List α) : (internAll [] as).length = as.toFinset.card := by
  have hset : (internAll [] as).toFinset = as.toFinset := by
    ext b
    simp [mem_internAll]
  rw [← hset, List.toFinset_card_of_nodup (nodup_internAll List.nodup_nil)]

end Interning
