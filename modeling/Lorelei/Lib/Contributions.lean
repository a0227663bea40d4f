import Mathlib.Data.List.Flatten
import Mathlib.Tactic.Push
import Lorelei.Lib.LastNamed

/-!
# What parts contribute to a list

A list grows part by part. What a part contributes may depend on what is there, but not on
what parts that it has nothing in common with have brought: then all of them contribute to
the list of the beginning (`foldl_contribute`), and a lookup finds the same whatever the order
of the parts is (`find_flatMap_perm`).

One way to contribute is to append the elements whose names are not there (`added`).
-/

namespace Contributions

open FirstOwner LastNamed

variable {K N T E P : Type*}

/-- A part appends its contribution. -/
def contribute (add : List E → P → List E) (entries : List E) (part : P) : List E :=
  entries ++ add entries part

theorem subset_foldl_contribute (add : List E → P → List E) (entries : List E) (parts : List P) :
    entries ⊆ parts.foldl (contribute add) entries := by
  induction parts generalizing entries with
  | nil => exact List.Subset.refl entries
  | cons part parts ih =>
      exact List.Subset.trans (List.subset_append_left entries (add entries part)) (ih _)

section Independent

variable {add : List E → P → List E} {foreign : E → P → Prop} {apart : P → P → Prop}

variable (foreign) in
/-- Parts that are apart all contribute to what is there at first. -/
theorem foldl_contribute (hforeign : ∀ entries more part, (∀ e ∈ more, foreign e part) →
      add (entries ++ more) part = add entries part)
    (hadd : ∀ entries part part', apart part part' → ∀ e ∈ add entries part, foreign e part')
    {parts : List P} (hparts : parts.Pairwise apart) (entries : List E) :
    parts.foldl (contribute add) entries = entries ++ parts.flatMap (add entries) := by
  have hfrom : ∀ more, (∀ part ∈ parts, ∀ e ∈ more, foreign e part) →
      parts.foldl (contribute add) (entries ++ more) =
        entries ++ more ++ parts.flatMap (add entries) := by
    induction parts with
    | nil => exact fun more _ => (List.append_nil _).symm
    | cons part parts ih =>
        intro more hmore
        obtain ⟨hpart, hparts⟩ := List.pairwise_cons.mp hparts
        have hsame := hforeign entries more part (hmore part List.mem_cons_self)
        rw [List.foldl_cons, contribute, hsame, List.append_assoc, ih hparts]
        · rw [List.flatMap_cons, ← List.append_assoc, ← List.append_assoc]
        · intro part' hpart' e he
          rcases List.mem_append.mp he with he | he
          · exact hmore part' (List.mem_cons_of_mem part hpart') e he
          · exact hadd entries part part' (hpart part' hpart') e he
  simpa using hfrom [] (fun _ _ _ he => absurd he List.not_mem_nil)

end Independent

/-! ## Lookups -/

variable [DecidableEq K] {owned : E → List K} {k : K}

theorem find_append (l m : List E) : find owned (l ++ m) k = (find owned l k).or (find owned m k) :=
  List.find?_append

theorem find_eq_none_iff {l : List E} : find owned l k = none ↔ ∀ e ∈ l, k ∉ owned e := by
  rw [find, List.find?_eq_none]
  simp only [decide_eq_true_eq]

theorem firstOwner_isSome_iff {l : List E} :
    (firstOwner owned l k).isSome ↔ ∃ e ∈ l, k ∈ owned e := by
  rw [firstOwner, List.findIdx?_isSome, List.any_eq_true]
  simp only [decide_eq_true_eq]

theorem firstOwner_isNone_iff {l : List E} :
    firstOwner owned l k = none ↔ find owned l k = none := by
  rw [find_eq_none_iff, ← Option.not_isSome_iff_eq_none, firstOwner_isSome_iff]
  push Not
  rfl

/-- No name has an owner on both sides. -/
def KeysApart (owned : E → List K) (l m : List E) : Prop :=
  ∀ a ∈ l, ∀ b ∈ m, ∀ k ∈ owned a, k ∉ owned b

omit [DecidableEq K] in
theorem KeysApart.symm {l m : List E} (h : KeysApart owned l m) : KeysApart owned m l :=
  fun b hb a ha k hkb hka => h a ha b hb k hka hkb

theorem KeysApart.find_eq_none {l m : List E} (h : KeysApart owned l m) {e : E}
    (he : find owned l k = some e) : find owned m k = none := by
  refine find_eq_none_iff.mpr fun b hb hk => ?_
  have hka : k ∈ owned e := (find_eq_some_iff.mp he).1
  exact h e (List.mem_of_find?_eq_some he) b hb k hka hk

/-- Parts without a name in common can be put in any order. -/
theorem find_flatMap_perm {parts parts' : List P} (hperm : parts.Perm parts')
    (content : P → List E)
    (hapart : parts.Pairwise fun p q => KeysApart owned (content p) (content q)) :
    find owned (parts.flatMap content) k = find owned (parts'.flatMap content) k := by
  induction hperm with
  | nil => rfl
  | cons part _ ih =>
      rw [List.flatMap_cons, List.flatMap_cons, find_append, find_append,
        ih (List.pairwise_cons.mp hapart).2]
  | swap part part' parts =>
      obtain ⟨hpart, -⟩ := List.pairwise_cons.mp hapart
      have htwo := hpart part List.mem_cons_self
      simp only [List.flatMap_cons, find_append, ← Option.or_assoc]
      congr 1
      cases hfind : find owned (content part') k with
      | none => rw [Option.none_or, Option.or_none]
      | some e => rw [htwo.find_eq_none hfind, Option.none_or, Option.or_none]
  | trans hperm _ ih ih' =>
      exact (ih hapart).trans (ih' (hperm.pairwise hapart fun h => h.symm))

/-! ## Elements of new names -/

section Added

variable [DecidableEq N] (name : T → N)

/-- The elements whose names are not there, the first of each name. -/
def added (items : List T) : List T → List T
  | [] => []
  | t :: more =>
      if name t ∈ items.map name then added items more else t :: added (items ++ [t]) more

variable {name}

theorem mem_of_mem_added {items more : List T} {t : T} (h : t ∈ added name items more) :
    t ∈ more := by
  induction more generalizing items with
  | nil => exact h
  | cons u more ih =>
      rw [added] at h
      split at h
      · exact List.mem_cons_of_mem u (ih h)
      · rcases List.mem_cons.mp h with rfl | h
        · exact List.mem_cons_self
        · exact List.mem_cons_of_mem u (ih h)

theorem added_congr {items items' more : List T}
    (h : ∀ t ∈ more, name t ∈ items.map name ↔ name t ∈ items'.map name) :
    added name items more = added name items' more := by
  induction more generalizing items items' with
  | nil => rfl
  | cons u more ih =>
      have hmore := fun t ht => h t (List.mem_cons_of_mem u ht)
      have hlonger : added name (items ++ [u]) more = added name (items' ++ [u]) more :=
        ih fun t ht => by
          rw [List.map_append, List.map_append, List.mem_append, List.mem_append, hmore t ht]
      rw [added, added, ih hmore, hlonger]
      exact if_congr (h u List.mem_cons_self) rfl rfl

theorem added_append {items others more : List T} (h : ∀ t ∈ more, ∀ e ∈ others, name e ≠ name t) :
    added name (items ++ others) more = added name items more := by
  refine added_congr fun t ht => ?_
  rw [List.map_append, List.mem_append, or_iff_left]
  intro hmem
  obtain ⟨e, he, hname⟩ := List.mem_map.mp hmem
  exact h t ht e he hname

end Added

end Contributions
