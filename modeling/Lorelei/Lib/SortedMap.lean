import Mathlib.Algebra.Order.BigOperators.Group.List
import Mathlib.Algebra.Order.Ring.Nat
import Mathlib.Tactic.SplitIfs
import Mathlib.Data.List.Basic
import Mathlib.Data.Finset.Sort

/-!
# Maps kept as sorted lists

A map is the list of its elements in the order of their keys. `alter` changes the element
under a key, or inserts one; `insertNew` inserts an element unless its key is taken. When
many elements are inserted, all of them are kept exactly if their keys differ
(`perm_insertAll_iff`). A set is gone through in order, too (`elements`).
-/

namespace SortedMap

variable {K α : Type*} [LinearOrder K] (key : α → K)

/-- Change the element under `k`; `f` is given what is there. -/
def alter (k : K) (f : Option α → α) : List α → List α
  | [] => [f none]
  | a :: l =>
      if k < key a then f none :: a :: l
      else if k = key a then f (some a) :: l
      else a :: alter k f l

/-- The keys are in strictly increasing order. -/
abbrev Sorted (l : List α) : Prop := l.Pairwise fun a b => key a < key b

variable {key} {k : K} {f : Option α → α} {l : List α} {a : α}

/-- What is in a changed map is new, or changed, or has been there before. -/
theorem mem_alter (h : a ∈ alter key k f l) : a = f none ∨ (∃ b ∈ l, a = f (some b)) ∨ a ∈ l := by
  induction l with
  | nil => exact .inl (by simpa [alter] using h)
  | cons b l ih =>
      rw [alter] at h
      split at h
      case isTrue hlt =>
        rcases List.mem_cons.mp h with rfl | h
        · exact .inl rfl
        · exact .inr (.inr h)
      case isFalse hlt =>
        split at h
        case isTrue heq =>
          rcases List.mem_cons.mp h with rfl | h
          · exact .inr (.inl ⟨b, List.mem_cons_self, rfl⟩)
          · exact .inr (.inr (List.mem_cons_of_mem b h))
        case isFalse hne =>
          rcases List.mem_cons.mp h with rfl | h
          · exact .inr (.inr List.mem_cons_self)
          · rcases ih h with hnew | ⟨c, hc, heq⟩ | hold
            · exact .inl hnew
            · exact .inr (.inl ⟨c, List.mem_cons_of_mem b hc, heq⟩)
            · exact .inr (.inr (List.mem_cons_of_mem b hold))

/-- The keys of a changed map. -/
theorem mem_map_key_alter (hf : ∀ o, key (f o) = k) {k' : K} :
    k' ∈ (alter key k f l).map key ↔ k' = k ∨ k' ∈ l.map key := by
  induction l with
  | nil => simp [alter, hf]
  | cons b l ih =>
      rw [alter]
      split
      case isTrue hlt => simp [hf]
      case isFalse hlt =>
        split
        case isTrue heq => simp [hf, heq]
        case isFalse hne =>
          rw [List.map_cons, List.map_cons, List.mem_cons, List.mem_cons, ih]
          tauto

theorem sorted_alter (hf : ∀ o, key (f o) = k) (h : Sorted key l) :
    Sorted key (alter key k f l) := by
  induction l with
  | nil => simp [alter]
  | cons b l ih =>
      obtain ⟨hb, hl⟩ := List.pairwise_cons.mp h
      rw [alter]
      split
      case isTrue hlt =>
        refine List.pairwise_cons.mpr ⟨fun c hc => ?_, h⟩
        rw [hf]
        rcases List.mem_cons.mp hc with rfl | hc
        · exact hlt
        · exact hlt.trans (hb c hc)
      case isFalse hlt =>
        split
        case isTrue heq =>
          refine List.pairwise_cons.mpr ⟨fun c hc => ?_, hl⟩
          rw [hf, heq]
          exact hb c hc
        case isFalse hne =>
          refine List.pairwise_cons.mpr ⟨fun c hc => ?_, ih hl⟩
          rcases mem_map_key_alter hf |>.mp (List.mem_map_of_mem hc) with heq | hmem
          · rw [heq]
            exact lt_of_le_of_ne (not_lt.mp hlt) (Ne.symm hne)
          · obtain ⟨d, hd, hdc⟩ := List.mem_map.mp hmem
            exact hdc ▸ hb d hd

/-! ## Inserting what is new -/

theorem alter_of_notMem (h : k ∉ l.map key) : (alter key k f l).Perm (f none :: l) := by
  induction l with
  | nil => exact .refl _
  | cons b l ih =>
      rw [List.map_cons, List.mem_cons, not_or] at h
      rw [alter, if_neg h.1]
      split
      case isTrue => exact .refl _
      case isFalse => exact ((ih h.2).cons b).trans (.swap _ _ _)

theorem alter_congr_of_notMem {g : Option α → α} (h : k ∉ l.map key) (hfg : f none = g none) :
    alter key k f l = alter key k g l := by
  induction l with
  | nil => rw [alter, alter, hfg]
  | cons b l ih =>
      rw [List.map_cons, List.mem_cons, not_or] at h
      rw [alter, alter, if_neg h.1, if_neg h.1, ih h.2, hfg]

variable (key) in
/-- Insert an element; what is there under its key stays. -/
def insertNew (a : α) (l : List α) : List α := alter key (key a) (fun o => o.getD a) l

theorem insertNew_of_notMem (h : key a ∉ l.map key) : (insertNew key a l).Perm (a :: l) :=
  alter_of_notMem h

theorem insertNew_of_mem (hl : Sorted key l) (h : key a ∈ l.map key) : insertNew key a l = l := by
  induction l with
  | nil => exact absurd h List.not_mem_nil
  | cons b l ih =>
      obtain ⟨hb, hl⟩ := List.pairwise_cons.mp hl
      rw [insertNew, alter]
      by_cases heq : key a = key b
      · rw [if_neg (heq ▸ lt_irrefl _), if_pos heq]
        rfl
      · have hmem : key a ∈ l.map key := (List.mem_cons.mp h).resolve_left heq
        obtain ⟨c, hc, hca⟩ := List.mem_map.mp hmem
        rw [if_neg (hca ▸ (hb c hc).not_gt), if_neg heq]
        exact congrArg (b :: ·) (ih hl hmem)

theorem sorted_insertNew (a : α) (hl : Sorted key l) : Sorted key (insertNew key a l) := by
  by_cases h : key a ∈ l.map key
  · rwa [insertNew_of_mem hl h]
  · rw [insertNew, alter_congr_of_notMem h (g := fun _ => a) rfl]
    exact sorted_alter (fun _ => rfl) hl

variable (key) in
/-- Insert elements one after the other. -/
def insertAll (as l : List α) : List α := as.foldl (fun l a => insertNew key a l) l

variable {as : List α}

variable (key) in
theorem insertAll_eq_nil_iff : insertAll key as l = [] ↔ as = [] ∧ l = [] := by
  induction as generalizing l with
  | nil => simp [insertAll]
  | cons a as ih =>
      have hne : insertNew key a l ≠ [] := by
        intro h
        rw [insertNew] at h
        cases l with
        | nil => exact nomatch h
        | cons b l =>
            rw [alter] at h
            split_ifs at h
      show insertAll key as (insertNew key a l) = [] ↔ _
      rw [ih]
      simp [hne]

variable (key) in
/-- Of the inserted elements some are kept, and the keys of what is there differ. -/
theorem exists_kept (as : List α) (hl : Sorted key l) : Sorted key (insertAll key as l) ∧
    ∃ kept : List α, kept.Sublist as ∧ (insertAll key as l).Perm (kept ++ l) := by
  induction as generalizing l with
  | nil => exact ⟨hl, [], .refl _, .refl _⟩
  | cons a as ih =>
      obtain ⟨hsorted, kept, hsub, hperm⟩ := ih (sorted_insertNew a hl)
      refine ⟨hsorted, ?_⟩
      by_cases h : key a ∈ l.map key
      · rw [insertNew_of_mem hl h] at hperm
        exact ⟨kept, hsub.cons a, by rwa [insertAll, List.foldl_cons, insertNew_of_mem hl h]⟩
      · refine ⟨a :: kept, hsub.cons_cons a, hperm.trans ?_⟩
        exact ((insertNew_of_notMem h).append_left kept).trans List.perm_middle

theorem sorted_insertAll (as : List α) (hl : Sorted key l) : Sorted key (insertAll key as l) :=
  (exists_kept key as hl).1

theorem mem_of_mem_insertAll (h : a ∈ insertAll key as []) : a ∈ as := by
  obtain ⟨-, kept, hsub, hperm⟩ := exists_kept key as List.Pairwise.nil
  rw [List.append_nil] at hperm
  exact hsub.subset (hperm.mem_iff.mp h)

theorem nodup_of_sorted (hl : Sorted key l) : (l.map key).Nodup :=
  List.pairwise_map.mpr (hl.imp fun h => h.ne)

theorem insertAll_of_nodup (h : ((as ++ l).map key).Nodup) :
    (insertAll key as l).Perm (as ++ l) := by
  induction as generalizing l with
  | nil => exact .refl _
  | cons a as ih =>
      rw [List.cons_append, List.map_cons, List.nodup_cons] at h
      have hl : key a ∉ l.map key := by
        intro hmem
        rw [List.map_append, List.mem_append] at h
        exact h.1 (.inr hmem)
      have hperm : (as ++ insertNew key a l).Perm (a :: (as ++ l)) :=
        ((insertNew_of_notMem hl).append_left as).trans List.perm_middle
      refine (ih ?_).trans hperm
      rw [(hperm.map key).nodup_iff, List.map_cons, List.nodup_cons]
      exact h

/-- All elements are kept exactly if their keys differ. -/
theorem perm_insertAll_iff : (insertAll key as []).Perm as ↔ (as.map key).Nodup := by
  constructor
  · intro h
    exact (h.map key).nodup_iff.mp (nodup_of_sorted (sorted_insertAll as List.Pairwise.nil))
  · intro h
    have hkeys : ((as ++ []).map key).Nodup := by rwa [List.append_nil]
    have hperm := insertAll_of_nodup hkeys
    rwa [List.append_nil] at hperm

/-- A part of a list that weighs as much is all of it. -/
theorem Sublist.eq_of_sum_eq {as bs : List α} (w : α → Nat) (h : as.Sublist bs)
    (hw : ∀ b ∈ bs, 0 < w b) (heq : (as.map w).sum = (bs.map w).sum) : as = bs := by
  induction h with
  | slnil => rfl
  | cons b hsub ih =>
      have hle := (hsub.map w).sum_le_sum fun _ _ => Nat.zero_le _
      have hpos := hw b List.mem_cons_self
      rw [List.map_cons, List.sum_cons] at heq
      omega
  | cons_cons b hsub ih =>
      rw [List.map_cons, List.map_cons, List.sum_cons, List.sum_cons] at heq
      rw [ih (fun c hc => hw c (List.mem_cons_of_mem b hc)) (by omega)]

variable (key) in
theorem sum_insertAll_le (as : List α) (w : α → Nat) :
    ((insertAll key as []).map w).sum ≤ (as.map w).sum := by
  obtain ⟨-, kept, hsub, hperm⟩ := exists_kept key as List.Pairwise.nil
  rw [List.append_nil] at hperm
  rw [(hperm.map w).sum_nat]
  exact (hsub.map w).sum_le_sum fun _ _ => Nat.zero_le _

variable (key) in
theorem sum_insertAll_pos {w : α → Nat} (hw : ∀ a ∈ as, 0 < w a) (hne : as ≠ []) :
    0 < ((insertAll key as []).map w).sum := by
  obtain ⟨a, ha⟩ := List.exists_mem_of_ne_nil _
    (mt (insertAll_eq_nil_iff key (l := [])).mp fun h => hne h.1)
  have hle := List.single_le_sum (fun _ _ => Nat.zero_le _) _ (List.mem_map_of_mem (f := w) ha)
  exact (hw a (mem_of_mem_insertAll ha)).trans_le hle

variable (key) in
/-- Nothing of a weight is lost exactly if the keys differ. -/
theorem sum_insertAll_eq_iff {w : α → Nat} (hw : ∀ a ∈ as, 0 < w a) :
    ((insertAll key as []).map w).sum = (as.map w).sum ↔ (as.map key).Nodup := by
  constructor
  · intro heq
    obtain ⟨-, kept, hsub, hperm⟩ := exists_kept key as List.Pairwise.nil
    rw [List.append_nil] at hperm
    rw [(hperm.map w).sum_nat] at heq
    rw [Sublist.eq_of_sum_eq w hsub hw heq] at hperm
    exact perm_insertAll_iff.mp hperm
  · intro h
    exact ((perm_insertAll_iff.mpr h).map w).sum_nat

/-- An element that is put under its key is found there, and nothing else changes. -/
theorem find?_set {p : α → Bool} {k' : K} (hp : ∀ b, p b = true ↔ key b = k') (a : α) (l : List α) :
    (alter key (key a) (fun _ => a) l).find? p = if p a then some a else l.find? p := by
  induction l with
  | nil => rw [alter, List.find?_singleton, List.find?_nil]
  | cons b l ih =>
      rw [alter]
      split
      case isTrue hlt =>
        rw [List.find?_cons]
        split <;> simp [*]
      case isFalse hlt =>
        split
        case isTrue heq =>
          have hpb : p b = p a := Bool.eq_iff_iff.mpr (by rw [hp, hp, heq])
          rw [List.find?_cons, List.find?_cons, hpb]
          split <;> simp [*]
        case isFalse hne =>
          rw [List.find?_cons, List.find?_cons, ih]
          cases hb : p b with
          | false => rfl
          | true =>
              have ha : p a = false := by
                rw [Bool.eq_false_iff, ne_eq, hp, ← (hp b).mp hb]
                exact hne
              simp [ha]

theorem lookup_of_mem {β : Type*} {l : List (K × β)} (hl : Sorted Prod.fst l) {b : β}
    (h : (k, b) ∈ l) : l.lookup k = some b := by
  obtain ⟨before, after, rfl⟩ := List.append_of_mem h
  refine List.lookup_eq_some_iff.mpr ⟨before, after, rfl, fun p hp => ?_⟩
  have hlt := (List.pairwise_append.mp hl).2.2 p hp (k, b) List.mem_cons_self
  exact bne_iff_ne.mpr hlt.ne'

/-- The elements of a set, in order. -/
abbrev elements (s : Finset K) : List K := s.sort

end SortedMap
