import Mathlib.Data.Set.Function

/-!
# Paths joined with a separator

A path of names is written with a separator in front of each name. Two paths are written
alike exactly if they part at names of which one continues the other, and what it continues
with is how the rest of the other path is written (`injOn_join_iff`).
-/

namespace Joined

variable {α : Type*} (sep : List α)

/-- A path with the separator in front of each name. -/
def join (path : List (List α)) : List α := path.flatMap (sep ++ ·)

/-- Two of the paths part at the names `x` and `x ++ z`, and `z` with the rest of the second
path is how the rest of the first one is written. -/
def RunTogether (paths : List (List (List α))) : Prop :=
  ∃ c x z p q, z ≠ [] ∧ c ++ x :: p ∈ paths ∧ c ++ (x ++ z) :: q ∈ paths ∧
    join sep p = z ++ join sep q

variable {sep} {p q : List (List α)} {paths : List (List (List α))}

@[simp] theorem join_nil : join sep [] = [] := rfl

@[simp] theorem join_cons (x : List α) (p : List (List α)) :
    join sep (x :: p) = sep ++ x ++ join sep p := rfl

@[simp] theorem join_append (p q : List (List α)) : join sep (p ++ q) = join sep p ++ join sep q :=
  List.flatMap_append

/-- Where two paths that are written alike part. -/
theorem exists_of_join_eq (hsep : sep ≠ []) (h : join sep p = join sep q) (hne : p ≠ q) :
    ∃ c x z p' q', z ≠ [] ∧ join sep p' = z ++ join sep q' ∧
      ((p = c ++ x :: p' ∧ q = c ++ (x ++ z) :: q') ∨
        (q = c ++ x :: p' ∧ p = c ++ (x ++ z) :: q')) := by
  induction p generalizing q with
  | nil =>
      cases q with
      | nil => exact absurd rfl hne
      | cons y q => simp [hsep] at h
  | cons x p ih =>
      cases q with
      | nil => simp [hsep] at h
      | cons y q =>
          rw [join_cons, join_cons, List.append_assoc, List.append_assoc] at h
          have hrest := List.append_cancel_left h
          by_cases hxy : x = y
          · subst hxy
            obtain ⟨c, x', z, p', q', hz, heq, hparts⟩ :=
              ih (List.append_cancel_left hrest) fun hpq => hne (hpq ▸ rfl)
            refine ⟨x :: c, x', z, p', q', hz, heq, ?_⟩
            rcases hparts with ⟨rfl, rfl⟩ | ⟨rfl, rfl⟩
            · exact .inl ⟨rfl, rfl⟩
            · exact .inr ⟨rfl, rfl⟩
          · rcases List.append_eq_append_iff.mp hrest with ⟨z, rfl, heq⟩ | ⟨z, rfl, heq⟩
            · have hz : z ≠ [] := by
                rintro rfl
                exact hxy (List.append_nil x).symm
              exact ⟨[], x, z, p, q, hz, heq, .inl ⟨rfl, rfl⟩⟩
            · have hz : z ≠ [] := by
                rintro rfl
                exact hxy (List.append_nil y)
              exact ⟨[], y, z, q, p, hz, heq, .inr ⟨rfl, rfl⟩⟩

/-- Paths are told apart by how they are written exactly if no two of them run together. -/
theorem injOn_join_iff (hsep : sep ≠ []) :
    Set.InjOn (join sep) {p | p ∈ paths} ↔ ¬ RunTogether sep paths := by
  constructor
  · rintro hinj ⟨c, x, z, p, q, hz, hp, hq, heq⟩
    have hsame : c ++ x :: p = c ++ (x ++ z) :: q := hinj hp hq (by simp [heq])
    have hname := (List.cons.inj (List.append_cancel_left hsame)).1
    exact hz (List.append_cancel_left ((List.append_nil x).trans hname)).symm
  · intro h p hp q hq heq
    by_contra hne
    obtain ⟨c, x, z, p', q', hz, hrest, ⟨rfl, rfl⟩ | ⟨rfl, rfl⟩⟩ := exists_of_join_eq hsep heq hne
    · exact h ⟨c, x, z, p', q', hz, hp, hq, hrest⟩
    · exact h ⟨c, x, z, p', q', hz, hq, hp, hrest⟩

end Joined
