import Mathlib.Data.List.Basic
import Mathlib.Logic.Function.Basic

/-!
# An index that keeps the first owner of a name

An index maps names to positions of a list whose elements own names.  Filling it
element by element, and never replacing what is there, makes every name lead to the
first element that owns it (`indexAll_eq_findIdx?`).  Elements that are appended later
therefore change nothing for a name that already leads somewhere.
-/

namespace FirstOwner

variable {K T : Type*} [DecidableEq K]

abbrev Index (K : Type*) := K → Option Nat

/-- Insert unless the name is there. -/
def emplace (index : Index K) (k : K) (i : Nat) : Index K :=
  if (index k).isSome then index else Function.update index k (some i)

def emplaceAll (index : Index K) (ks : List K) (i : Nat) : Index K :=
  ks.foldl (fun index k => emplace index k i) index

/-- Fill an index with elements whose positions start at `i`. -/
def indexFrom (owned : T → List K) (index : Index K) : Nat → List T → Index K
  | _, [] => index
  | i, t :: items => indexFrom owned (emplaceAll index (owned t) i) (i + 1) items

def indexAll (owned : T → List K) (items : List T) : Index K :=
  indexFrom owned (fun _ => none) 0 items

/-- The first element that owns the name. -/
def firstOwner (owned : T → List K) (items : List T) (k : K) : Option Nat :=
  items.findIdx? fun t => k ∈ owned t

variable {owned : T → List K} {items more : List T} {index : Index K} {k : K} {ks : List K}
  {i : Nat}

theorem emplace_apply (k' : K) : emplace index k' i k =
    (index k).or (if k = k' then some i else none) := by
  by_cases hk : k = k'
  · subst hk
    cases h : index k <;> simp [emplace, h]
  · by_cases h : (index k').isSome
    · simp [emplace, h, hk]
    · simp [emplace, h, hk, Function.update_of_ne]

theorem emplaceAll_apply : emplaceAll index ks i k =
    (index k).or (if k ∈ ks then some i else none) := by
  induction ks generalizing index with
  | nil => simp [emplaceAll]
  | cons k' ks ih =>
      rw [emplaceAll, List.foldl_cons]
      change emplaceAll (emplace index k' i) ks i k = _
      rw [ih, emplace_apply, Option.or_assoc]
      by_cases hk : k = k'
      · simp [hk]
      · simp [hk]

theorem indexFrom_apply : indexFrom owned index i items k =
    (index k).or ((firstOwner owned items k).map (i + ·)) := by
  induction items generalizing index i with
  | nil => simp [indexFrom, firstOwner]
  | cons t items ih =>
      rw [indexFrom, ih, emplaceAll_apply, Option.or_assoc]
      simp only [firstOwner, List.findIdx?_cons]
      by_cases hk : k ∈ owned t
      · simp [hk]
      · simp [hk, Function.comp_def, Nat.add_assoc, Nat.add_comm 1]

theorem indexAll_eq_firstOwner : indexAll owned items = firstOwner owned items := by
  funext k
  rw [indexAll, indexFrom_apply]
  simp

theorem firstOwner_lt (h : firstOwner owned items k = some i) : i < items.length := by
  obtain ⟨hi, -⟩ := List.findIdx?_eq_some_iff_getElem.mp h
  exact hi

/-- Elements appended later do not take a name over. -/
theorem firstOwner_append_of_some (h : firstOwner owned items k = some i) :
    firstOwner owned (items ++ more) k = some i := by
  rw [firstOwner] at h ⊢
  simp [List.findIdx?_append, h]

/-- The first owner depends on the names only. -/
theorem firstOwner_congr {owned' : T → List K} (h : ∀ t ∈ items, owned' t = owned t) :
    firstOwner owned' items k = firstOwner owned items k := by
  induction items with
  | nil => rfl
  | cons t items ih =>
      rw [firstOwner, firstOwner, List.findIdx?_cons, List.findIdx?_cons,
        h t List.mem_cons_self]
      have hrest := ih fun t ht => h t (List.mem_cons_of_mem _ ht)
      rw [firstOwner, firstOwner] at hrest
      rw [hrest]

theorem firstOwner_map {S : Type*} (f : S → T) (items : List S) :
    firstOwner owned (items.map f) k = firstOwner (owned ∘ f) items k := by
  rw [firstOwner, firstOwner, List.findIdx?_map]
  rfl

theorem firstOwner_append_of_none (h : firstOwner owned items k = none) :
    firstOwner owned (items ++ more) k = (firstOwner owned more k).map (items.length + ·) := by
  rw [firstOwner] at h
  rw [firstOwner, List.findIdx?_append, h, Option.none_or]
  cases hm : List.findIdx? (fun t => decide (k ∈ owned t)) more <;>
    simp [firstOwner, hm, Nat.add_comm]

theorem owns_of_firstOwner (h : firstOwner owned items k = some i) :
    ∃ t, items[i]? = some t ∧ k ∈ owned t := by
  obtain ⟨hi, howns, -⟩ := List.findIdx?_eq_some_iff_getElem.mp h
  exact ⟨items[i], List.getElem?_eq_getElem hi, of_decide_eq_true howns⟩

/-- Where no name is there twice, a name leads to its position. -/
theorem firstOwner_eq_some_iff_of_nodup {names : List K} (hnodup : names.Nodup) :
    firstOwner (fun k => [k]) names k = some i ↔ names[i]? = some k := by
  constructor
  · intro h
    obtain ⟨k', hk', howns⟩ := owns_of_firstOwner h
    rw [hk', List.mem_singleton.mp howns]
  · intro h
    have hmem : k ∈ names := List.mem_of_getElem? h
    have hsome : (firstOwner (fun k => [k]) names k).isSome = true := by
      rw [firstOwner, List.findIdx?_isSome, List.any_eq_true]
      exact ⟨k, hmem, by simp⟩
    obtain ⟨j, hj⟩ := Option.isSome_iff_exists.mp hsome
    obtain ⟨k', hk', howns⟩ := owns_of_firstOwner hj
    rw [← List.mem_singleton.mp howns] at hk'
    rw [hj, (List.getElem?_inj (firstOwner_lt hj) hnodup).mp (hk'.trans h.symm)]

/-- A name leads to an owner that is as good as any later one, if the owners before it
are. -/
theorem exists_firstOwner {V : Type*} (f : T → V) {pre post : List T} {t : T} (hk : k ∈ owned t)
    (hpre : ∀ a ∈ pre, k ∈ owned a → f a = f t) :
    ∃ i t', firstOwner owned (pre ++ t :: post) k = some i ∧
      (pre ++ t :: post)[i]? = some t' ∧ f t' = f t := by
  induction pre with
  | nil => exact ⟨0, t, by simp [firstOwner, List.findIdx?_cons, hk], rfl, rfl⟩
  | cons a pre ih =>
      by_cases ha : k ∈ owned a
      · refine ⟨0, a, by simp [firstOwner, List.findIdx?_cons, ha], rfl, ?_⟩
        exact hpre a List.mem_cons_self ha
      · obtain ⟨i, t', hi, hget, heq⟩ := ih fun b hb => hpre b (List.mem_cons_of_mem _ hb)
        refine ⟨i + 1, t', ?_, by simpa using hget, heq⟩
        rw [firstOwner] at hi
        simp [firstOwner, List.findIdx?_cons, ha, hi]

end FirstOwner
