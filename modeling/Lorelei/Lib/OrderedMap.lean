import Lorelei.Lib.SortedMap

/-!
# Maps in the order of their keys

A map is the list of its entries, kept in the order of the keys.  It can be written out
entry by entry and filled again by any loop that puts each entry under its key
(`foldl_eq_of_entries`).
-/

/-- The entries of a map, with strictly increasing keys. -/
@[ext] structure OrderedMap (K V : Type*) [LinearOrder K] where
  entries : List (K × V)
  sorted : SortedMap.Sorted Prod.fst entries

namespace OrderedMap

variable {K V : Type*} [LinearOrder K]

def empty : OrderedMap K V := ⟨[], List.Pairwise.nil⟩

@[simp] theorem entries_empty : (empty : OrderedMap K V).entries = [] := rfl

theorem sorted_alter {k : K} {f : Option V → V} (m : OrderedMap K V) :
    SortedMap.Sorted Prod.fst
      (SortedMap.alter Prod.fst k (fun p => (k, f (p.map Prod.snd))) m.entries) :=
  SortedMap.sorted_alter (fun _ => rfl) m.sorted

/-- Change the value under a key, or put one there; `f` is given what is there. -/
def alter (k : K) (f : Option V → V) (m : OrderedMap K V) : OrderedMap K V :=
  ⟨SortedMap.alter Prod.fst k (fun p => (k, f (p.map Prod.snd))) m.entries, m.sorted_alter⟩

variable {k : K} {v : V} {f : Option V → V} {m : OrderedMap K V}

/-- What is in a changed map is under the key, or has been there before. -/
theorem mem_alter {p : K × V} (h : p ∈ (m.alter k f).entries) :
    p = (k, f none) ∨ (∃ q ∈ m.entries, p = (k, f (some q.2))) ∨ p ∈ m.entries :=
  SortedMap.mem_alter h

theorem mem_keys_alter {k' : K} :
    k' ∈ (m.alter k f).entries.map Prod.fst ↔ k' = k ∨ k' ∈ m.entries.map Prod.fst :=
  SortedMap.mem_map_key_alter (f := fun p : Option (K × V) => (k, f (p.map Prod.snd))) fun _ => rfl

theorem entries_alter_of_forall_lt (h : ∀ p ∈ m.entries, p.1 < k) :
    (m.alter k f).entries = m.entries ++ [(k, f none)] := by
  rw [alter]
  obtain ⟨l, hl⟩ := m
  induction l with
  | nil => rfl
  | cons p l ih =>
    obtain ⟨hp, hrest⟩ := List.forall_mem_cons.mp h
    have htail := ih (List.Pairwise.of_cons hl) hrest
    simp only at htail ⊢
    rw [SortedMap.alter, if_neg hp.not_gt, if_neg hp.ne', htail, List.cons_append]

/-! ## Lookups -/

/-- The value under a key. -/
def find (m : OrderedMap K V) (k : K) : Option V :=
  (m.entries.find? fun p => p.1 = k).map Prod.snd

theorem find_empty (k : K) : (empty : OrderedMap K V).find k = none := rfl

theorem find_eq_some_iff : m.find k = some v ↔ (k, v) ∈ m.entries := by
  rw [find, Option.map_eq_some_iff]
  constructor
  · rintro ⟨⟨k', v'⟩, hfind, rfl⟩
    obtain rfl : k' = k := by simpa using List.find?_some hfind
    exact List.mem_of_find?_eq_some hfind
  · intro hmem
    refine ⟨(k, v), ?_, rfl⟩
    obtain ⟨before, after, heq⟩ := List.append_of_mem hmem
    have hsorted := m.sorted
    rw [heq, SortedMap.Sorted, List.pairwise_append] at hsorted
    rw [heq, List.find?_append, List.find?_eq_none.mpr, Option.none_or,
      List.find?_cons_of_pos (by simp)]
    intro p hp
    have hlt := hsorted.2.2 p hp (k, v) List.mem_cons_self
    simpa using hlt.ne

theorem find_alter (m : OrderedMap K V) (k k' : K) (f : Option V → V) :
    (m.alter k f).find k' = if k = k' then some (f (m.find k)) else m.find k' := by
  obtain ⟨l, hl⟩ := m
  simp only [find, alter]
  induction l with
  | nil => by_cases hk : k = k' <;> simp [SortedMap.alter, hk]
  | cons p l ih =>
      obtain ⟨hp, hl⟩ := List.pairwise_cons.mp hl
      rw [SortedMap.alter]
      split
      case isTrue hlt =>
        have hnone : (p :: l).find? (fun q => q.1 = k) = none := by
          refine List.find?_eq_none.mpr fun q hq => ?_
          rcases List.mem_cons.mp hq with rfl | hq
          · simpa using hlt.ne'
          · simpa using (hlt.trans (hp q hq)).ne'
        rw [hnone]
        by_cases hk : k = k' <;> simp [List.find?_cons, hk]
      case isFalse hlt =>
        split
        case isTrue heq =>
          subst heq
          by_cases hk : p.1 = k' <;> simp [hk]
        case isFalse hne =>
          rw [List.find?_cons]
          by_cases hp' : p.1 = k'
          · have hkk : k ≠ k' := fun h => hne (h.trans hp'.symm)
            simp [hp', hkk]
          · simpa [hp', Ne.symm hne] using ih hl

theorem find_alter_self (m : OrderedMap K V) (k : K) (f : Option V → V) :
    (m.alter k f).find k = some (f (m.find k)) := by
  rw [find_alter, if_pos rfl]

theorem find_alter_of_ne {k' : K} (m : OrderedMap K V) (f : Option V → V) (h : k ≠ k') :
    (m.alter k f).find k' = m.find k' := by
  rw [find_alter, if_neg h]

/-- A map is what is found in it. -/
theorem eq_of_find {m m' : OrderedMap K V} (h : ∀ k, m.find k = m'.find k) : m = m' := by
  refine OrderedMap.ext
    (List.Pairwise.eq_of_mem_iff (r := fun p q => p.1 < q.1) m.sorted m'.sorted ?_)
  rintro ⟨k, v⟩
  rw [← find_eq_some_iff, ← find_eq_some_iff, h]

/-! ## Writing out and reading back -/

variable {α : Type*} {step : OrderedMap K V → α → OrderedMap K V} {item : K × V → α}

/-- A loop over the entries that puts each under its key adds them in order. -/
theorem entries_foldl {l : List (K × V)}
    (hstep : ∀ m p, p ∈ l → ∃ f : Option V → V, f none = p.2 ∧ step m (item p) = m.alter p.1 f)
    (hl : SortedMap.Sorted Prod.fst (m.entries ++ l)) :
    ((l.map item).foldl step m).entries = m.entries ++ l := by
  induction l generalizing m with
  | nil => simp
  | cons p l ih =>
    obtain ⟨f, hf, heq⟩ := hstep m p List.mem_cons_self
    have hlt : ∀ q ∈ m.entries, q.1 < p.1 := fun q hq =>
      (List.pairwise_append.mp hl).2.2 q hq p List.mem_cons_self
    have hentries : (step m (item p)).entries = m.entries ++ [p] := by
      rw [heq, entries_alter_of_forall_lt hlt, hf]
    have hassoc : m.entries ++ p :: l = (step m (item p)).entries ++ l := by
      rw [hentries, List.append_assoc, List.singleton_append]
    rw [List.map_cons, List.foldl_cons, hassoc]
    refine ih (fun m q hq => hstep m q (List.mem_cons_of_mem p hq)) ?_
    rwa [← hassoc]

/-- Reading the written entries gives the map back. -/
theorem foldl_eq_of_entries
    (hstep : ∀ m' p, p ∈ m.entries →
      ∃ f : Option V → V, f none = p.2 ∧ step m' (item p) = m'.alter p.1 f) :
    (m.entries.map item).foldl step empty = m :=
  OrderedMap.ext (entries_foldl (m := empty) hstep m.sorted)

/-! ## Grouping -/

/-- A map of lists, with these values behind what stands under their keys. -/
def group (pairs : List (K × V)) (m : OrderedMap K (List V)) : OrderedMap K (List V) :=
  pairs.foldl (fun m p => m.alter p.1 fun vs => vs.getD [] ++ [p.2]) m

/-- The values of a key. -/
def valuesOf (k : K) (pairs : List (K × V)) : List V :=
  pairs.filterMap fun p => if p.1 = k then some p.2 else none

theorem getD_find_group (pairs : List (K × V)) (m : OrderedMap K (List V)) (k : K) :
    ((group pairs m).find k).getD [] = (m.find k).getD [] ++ valuesOf k pairs := by
  induction pairs generalizing m with
  | nil => exact (List.append_nil _).symm
  | cons p pairs ih =>
      rw [group, List.foldl_cons, ← group, ih, find_alter, valuesOf, valuesOf, List.filterMap_cons]
      by_cases hk : p.1 = k
      · subst hk
        simp
      · simp [hk]

/-- Keys that differ have one value each. -/
theorem valuesOf_map_of_nodup {ks : List K} (h : ks.Nodup) (k : K) (v : V) :
    valuesOf k (ks.map fun k => (k, v)) = if k ∈ ks then [v] else [] := by
  induction ks with
  | nil => rfl
  | cons k' ks ih =>
      obtain ⟨hk', hks⟩ := List.nodup_cons.mp h
      have ih := ih hks
      rw [valuesOf] at ih ⊢
      rw [List.map_cons, List.filterMap_cons]
      by_cases hk : k' = k
      · subst hk
        simp [ih, hk']
      · simp [ih, hk, Ne.symm hk]

theorem mem_keys_group (pairs : List (K × V)) (m : OrderedMap K (List V)) {k : K} :
    k ∈ (group pairs m).entries.map Prod.fst ↔
      k ∈ m.entries.map Prod.fst ∨ k ∈ pairs.map Prod.fst := by
  induction pairs generalizing m with
  | nil => simp [group]
  | cons p pairs ih =>
      rw [group, List.foldl_cons, ← group, ih, mem_keys_alter, List.map_cons, List.mem_cons]
      tauto

end OrderedMap
