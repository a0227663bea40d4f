import Mathlib.Data.List.Induction
import Mathlib.Data.List.Nodup
import Mathlib.Tactic.Push
import Lorelei.Lib.FirstOwner

/-!
# The last element of a name

Where a list has several elements of one name, the last of them is meant (`lastNamed`).
A list can be kept free of the others by replacing (`upsert`), which leaves an element the
place of the first of its name (`mem_upsertAll`). A lookup that finds first owners finds
only last elements exactly if no other element is the first owner of anything
(`lastWins_iff`).
-/

namespace LastNamed

open FirstOwner

variable {K T : Type*} [DecidableEq K] (name : T → K)

/-- The last element of a name. -/
def lastNamed (items : List T) (k : K) : Option T := items.reverse.find? fun t => name t = k

/-- Replace the element of this name, or append. -/
def upsert (items : List T) (t : T) : List T :=
  match firstOwner (fun t => [name t]) items (name t) with
  | some i => items.set i t
  | none => items ++ [t]

def upsertAll (items : List T) : List T := items.foldl (upsert name) []

/-- No other element of its name comes behind this one. -/
def Survives (items : List T) (t : T) : Prop := lastNamed name items (name t) = some t

instance [DecidableEq T] (items : List T) (t : T) : Decidable (Survives name items t) :=
  inferInstanceAs (Decidable (_ = _))

variable {name} {items : List T} {t e : T} {k : K}

theorem lastNamed_append_singleton :
    lastNamed name (items ++ [t]) k = if name t = k then some t else lastNamed name items k := by
  rw [lastNamed, List.reverse_append, List.reverse_singleton, List.singleton_append,
    List.find?_cons]
  by_cases h : name t = k
  · simp [h]
  · simp [h, lastNamed]

theorem name_of_lastNamed (h : lastNamed name items k = some t) : name t = k :=
  of_decide_eq_true (List.find?_some (p := fun t => decide (name t = k)) h)

theorem mem_of_lastNamed (h : lastNamed name items k = some t) : t ∈ items :=
  List.mem_reverse.mp (List.mem_of_find?_eq_some h)

theorem exists_lastNamed (h : t ∈ items) : ∃ e, lastNamed name items (name t) = some e := by
  have hsome : (items.reverse.find? fun e => decide (name e = name t)).isSome = true :=
    List.find?_isSome.mpr ⟨t, List.mem_reverse.mpr h, decide_eq_true rfl⟩
  exact Option.isSome_iff_exists.mp hsome

/-- A map that leaves the names alone. -/
theorem lastNamed_map {f : T → T} (h : ∀ t ∈ items, name (f t) = name t) :
    lastNamed name (items.map f) k = (lastNamed name items k).map f := by
  induction items using List.reverseRecOn with
  | nil => rfl
  | append_singleton items t ih =>
      rw [List.map_append, List.map_singleton, lastNamed_append_singleton,
        lastNamed_append_singleton, h t (by simp), ih fun e he => h e (List.mem_append_left _ he)]
      split <;> rfl

/-! ## Replacing -/

variable (name items t) in
/-- The element takes the place of the first one of its name, if there is one. -/
theorem upsert_cases :
    (∃ pre a post, items = pre ++ a :: post ∧ name a = name t ∧
        upsert name items t = pre ++ t :: post) ∨
      (∀ e ∈ items, name e ≠ name t) ∧ upsert name items t = items ++ [t] := by
  rw [upsert]
  split
  next i hi =>
    obtain ⟨a, ha, howns⟩ := owns_of_firstOwner hi
    obtain ⟨hlt, rfl⟩ := List.getElem?_eq_some_iff.mp ha
    refine .inl ⟨items.take i, items[i], items.drop (i + 1), ?_,
      (List.mem_singleton.mp howns).symm, ?_⟩
    · rw [← List.drop_eq_getElem_cons hlt, List.take_append_drop]
    · rw [List.set_eq_take_append_cons_drop, if_pos hlt]
  next hnone =>
    refine .inr ⟨?_, rfl⟩
    intro e he hname
    have hnot := List.findIdx?_eq_none_iff.mp hnone e he
    simp [hname] at hnot

/-- The position of a name in a list that an element has been put into. -/
theorem firstOwner_upsert :
    firstOwner (fun t => [name t]) (upsert name items t) k =
      (firstOwner (fun t => [name t]) items k).or
        (if k = name t then some items.length else none) := by
  have hnames : ∀ items : List T, firstOwner (fun t => [name t]) items k =
      firstOwner (fun k => [k]) (items.map name) k := by
    intro items
    rw [firstOwner_map]
    rfl
  rcases upsert_cases name items t with ⟨pre, a, post, rfl, hname, hupsert⟩ | ⟨hne, hupsert⟩
  · rw [hupsert, hnames, List.map_append, List.map_cons, ← hname, ← List.map_cons,
      ← List.map_append, ← hnames]
    by_cases hk : k = name a
    · cases hfirst : firstOwner (fun t => [name t]) (pre ++ a :: post) k with
      | some i => rfl
      | none =>
          have hnot := List.findIdx?_eq_none_iff.mp hfirst a (by simp)
          simp [hk] at hnot
    · rw [if_neg hk, Option.or_none]
  · rw [hupsert]
    cases hk : firstOwner (fun t => [name t]) items k with
    | some i => rw [firstOwner_append_of_some hk, Option.some_or]
    | none =>
        rw [firstOwner_append_of_none hk, Option.none_or]
        by_cases hkt : k = name t <;> simp [firstOwner, List.findIdx?_cons, hkt]

theorem nodup_upsert (hnodup : (items.map name).Nodup) :
    ((upsert name items t).map name).Nodup := by
  rcases upsert_cases name items t with ⟨pre, a, post, rfl, hname, hupsert⟩ | ⟨hne, hupsert⟩
  · rwa [hupsert, List.map_append, List.map_cons, ← hname, ← List.map_cons, ← List.map_append]
  · rw [hupsert, List.map_append, List.map_singleton, List.nodup_append]
    refine ⟨hnodup, List.nodup_singleton _, ?_⟩
    intro k hk k' hk' heq
    obtain ⟨e, he, rfl⟩ := List.mem_map.mp hk
    exact hne e he (heq.trans (List.mem_singleton.mp hk'))

theorem mem_upsert (hnodup : (items.map name).Nodup) :
    e ∈ upsert name items t ↔ e = t ∨ e ∈ items ∧ name e ≠ name t := by
  rcases upsert_cases name items t with ⟨pre, a, post, rfl, hname, hupsert⟩ | ⟨hne, hupsert⟩
  · rw [List.map_append, List.map_cons, List.nodup_append, List.nodup_cons] at hnodup
    obtain ⟨-, ⟨hpost, -⟩, hpre⟩ := hnodup
    have hpre' : ∀ e ∈ pre, name e ≠ name t := fun e he =>
      hname ▸ hpre _ (List.mem_map_of_mem he) _ List.mem_cons_self
    have hpost' : ∀ e ∈ post, name e ≠ name t := fun e he heq =>
      hpost (List.mem_map.mpr ⟨e, he, heq.trans hname.symm⟩)
    rw [hupsert]
    simp only [List.mem_append, List.mem_cons]
    constructor
    · rintro (he | rfl | he)
      · exact .inr ⟨.inl he, hpre' e he⟩
      · exact .inl rfl
      · exact .inr ⟨.inr (.inr he), hpost' e he⟩
    · rintro (rfl | ⟨he | rfl | he, hne⟩)
      · exact .inr (.inl rfl)
      · exact .inl he
      · exact absurd hname hne
      · exact .inr (.inr he)
  · rw [hupsert, List.mem_append, List.mem_singleton]
    constructor
    · rintro (he | rfl)
      · exact .inr ⟨he, hne e he⟩
      · exact .inl rfl
    · rintro (rfl | ⟨he, -⟩)
      · exact .inr rfl
      · exact .inl he

theorem upsertAll_append_singleton :
    upsertAll name (items ++ [t]) = upsert name (upsertAll name items) t := by
  rw [upsertAll, List.foldl_append]
  rfl

/-- Names that differ are all kept. -/
theorem upsertAll_of_nodup (h : (items.map name).Nodup) : upsertAll name items = items := by
  induction items using List.reverseRecOn with
  | nil => rfl
  | append_singleton items t ih =>
      rw [List.map_append, List.map_singleton, List.nodup_append] at h
      obtain ⟨hnodup, -, hne⟩ := h
      rw [upsertAll_append_singleton, ih hnodup]
      obtain ⟨pre, a, post, rfl, hname, -⟩ | ⟨-, hupsert⟩ := upsert_cases name items t
      · refine absurd hname (hne _ (List.mem_map_of_mem ?_) _ (List.mem_singleton_self _))
        simp
      · exact hupsert

/-- What is left of a list is the last element of each name. -/
theorem mem_upsertAll : (upsertAll name items |>.map name).Nodup ∧
    ∀ e, e ∈ upsertAll name items ↔ Survives name items e := by
  induction items using List.reverseRecOn with
  | nil => exact ⟨List.nodup_nil, fun e => ⟨nofun, nofun⟩⟩
  | append_singleton items t ih =>
      obtain ⟨hnodup, hmem⟩ := ih
      rw [upsertAll_append_singleton]
      refine ⟨nodup_upsert hnodup, fun e => ?_⟩
      rw [mem_upsert hnodup, Survives, lastNamed_append_singleton, hmem]
      by_cases hname : name t = name e
      · rw [if_pos hname, Option.some.injEq]
        constructor
        · rintro (rfl | ⟨-, hne⟩)
          · rfl
          · exact absurd hname.symm hne
        · rintro rfl
          exact .inl rfl
      · rw [if_neg hname]
        constructor
        · rintro (rfl | ⟨hsurvives, -⟩)
          · exact absurd rfl hname
          · exact hsurvives
        · intro hsurvives
          exact .inr ⟨hsurvives, Ne.symm hname⟩

theorem lastNamed_eq_some_iff :
    lastNamed name items k = some t ↔ Survives name items t ∧ name t = k := by
  constructor
  · intro h
    obtain rfl := name_of_lastNamed h
    exact ⟨h, rfl⟩
  · rintro ⟨h, rfl⟩
    exact h

/-- What is left under a name is the last element of it. -/
theorem find?_upsertAll :
    (upsertAll name items).find? (fun t => name t = k) = lastNamed name items k := by
  refine Option.ext fun t => ?_
  rw [lastNamed_eq_some_iff, ← mem_upsertAll.2]
  constructor
  · intro h
    exact ⟨List.mem_of_find?_eq_some h, by simpa using List.find?_some h⟩
  · rintro ⟨ht, rfl⟩
    obtain ⟨e, he⟩ : ∃ e, (upsertAll name items).find? (fun e => name e = name t) = some e :=
      Option.isSome_iff_exists.mp (List.find?_isSome.mpr ⟨t, ht, decide_eq_true rfl⟩)
    have hname : name e = name t := by simpa using List.find?_some he
    have hsurvives := (mem_upsertAll.2 e).mp (List.mem_of_find?_eq_some he)
    rw [Survives, hname, (mem_upsertAll.2 t).mp ht] at hsurvives
    rw [he, ← hsurvives]

omit [DecidableEq K] in
theorem eraseDups_append_singleton [BEq K] [LawfulBEq K] (ks : List K) (k : K) :
    (ks ++ [k]).eraseDups = if k ∈ ks then ks.eraseDups else ks.eraseDups ++ [k] := by
  rw [List.eraseDups_append, List.removeAll]
  by_cases h : k ∈ ks <;> simp [h, List.eraseDups_cons]

/-- The names of what is left stand where they have come first. -/
theorem map_name_upsertAll [BEq K] [LawfulBEq K] :
    (upsertAll name items).map name = (items.map name).eraseDups := by
  induction items using List.reverseRecOn with
  | nil => rfl
  | append_singleton items t ih =>
      have hmem : name t ∈ items.map name ↔ name t ∈ (upsertAll name items).map name := by
        rw [ih, List.mem_eraseDups]
      rw [upsertAll_append_singleton, List.map_append, List.map_singleton,
        eraseDups_append_singleton, ← ih]
      rcases upsert_cases name (upsertAll name items) t with
        ⟨pre, a, post, heq, hname, hupsert⟩ | ⟨hne, hupsert⟩
      · have hold : name t ∈ items.map name := by
          rw [hmem, heq, List.map_append, List.map_cons, hname]
          simp
        rw [if_pos hold, hupsert, heq, List.map_append, List.map_append, List.map_cons,
          List.map_cons, hname]
      · have hnew : name t ∉ items.map name := by
          rw [hmem]
          intro h
          obtain ⟨e, he, hname⟩ := List.mem_map.mp h
          exact hne e he hname
        rw [if_neg hnew, hupsert, List.map_append, List.map_singleton]

/-! ## Finding the last elements -/

variable {owned : T → List K} {entries : List T} {lookup : K → Option T}

/-- What is looked up is the last element of its name, and the last element of a name
that no other one owns is found under it. -/
structure LastWins (name : T → K) (owned : T → List K) (items : List T) (lookup : K → Option T) :
    Prop where
  named : ∀ t, Survives name items t →
    (∀ e, Survives name items e → name e ≠ name t → name t ∉ owned e) → lookup (name t) = some t
  reachable : ∀ k t, lookup k = some t → Survives name items t ∧ k ∈ owned t

/-- An entry that is not the last one of its name owns nothing that no entry in front of it
owns. -/
def FirstsLast (name : T → K) (owned : T → List K) (items entries : List T) : Prop :=
  ∀ pre t post, entries = pre ++ t :: post → Survives name items t ∨
    ∀ k ∈ owned t, ∃ e ∈ pre, k ∈ owned e

/-- The first owner of a name. -/
def find (owned : T → List K) (entries : List T) (k : K) : Option T :=
  entries.find? fun t => k ∈ owned t

theorem find_eq_some_iff : find owned entries k = some t ↔
    k ∈ owned t ∧ ∃ pre post, entries = pre ++ t :: post ∧ ∀ e ∈ pre, k ∉ owned e := by
  rw [find, List.find?_eq_some_iff_append]
  simp

/-- Another name of what has been found finds it too, unless it belongs to an entry in front. -/
theorem find_eq_some_iff_takeWhile [DecidableEq T] {k' : K} (h : find owned entries k = some t)
    (hk' : k' ∈ owned t) :
    find owned entries k' = some t ↔ ∀ e ∈ entries.takeWhile (· ≠ t), k' ∉ owned e := by
  have htake {k : K} {pre post : List T} (hk : k ∈ owned t) (hpre : ∀ e ∈ pre, k ∉ owned e) :
      (pre ++ t :: post).takeWhile (· ≠ t) = pre := by
    rw [List.takeWhile_append_of_pos, List.takeWhile_cons_of_neg (by simp), List.append_nil]
    intro e he
    refine decide_eq_true ?_
    rintro rfl
    exact hpre e he hk
  constructor
  · intro h'
    obtain ⟨-, pre, post, rfl, hpre⟩ := find_eq_some_iff.mp h'
    rwa [htake hk' hpre]
  · intro hfront
    obtain ⟨hk, pre, post, rfl, hpre⟩ := find_eq_some_iff.mp h
    rw [htake hk hpre] at hfront
    exact find_eq_some_iff.mpr ⟨hk', pre, post, rfl, hfront⟩

theorem firstOwner_bind_getElem? (entries : List T) (k : K) :
    (firstOwner owned entries k).bind (entries[·]?) = find owned entries k := by
  induction entries with
  | nil => rfl
  | cons t entries ih =>
      rw [find, List.find?_cons, firstOwner, List.findIdx?_cons]
      by_cases h : k ∈ owned t
      · simp [h]
      · rw [decide_eq_false h, ← find, ← ih, firstOwner]
        simp [Option.bind_map, Function.comp_def]

theorem lastWins_iff
    (hentries : ∀ t, Survives name items t → ∃ e ∈ entries, name t ∈ owned e) :
    LastWins name owned items (find owned entries) ↔ FirstsLast name owned items entries := by
  constructor
  · rintro h pre t post rfl
    by_contra hnot
    obtain ⟨hlast, hk⟩ := not_or.mp hnot
    push Not at hk
    obtain ⟨k, hk, hpre⟩ := hk
    exact hlast (h.reachable k t (find_eq_some_iff.mpr ⟨hk, pre, post, rfl, hpre⟩)).1
  · intro h
    have hreachable : ∀ k t, find owned entries k = some t →
        Survives name items t ∧ k ∈ owned t := by
      intro k t hfind
      obtain ⟨hk, pre, post, heq, hpre⟩ := find_eq_some_iff.mp hfind
      refine ⟨?_, hk⟩
      rcases h pre t post heq with hlast | hshadowed
      · exact hlast
      · obtain ⟨e, he, hke⟩ := hshadowed k hk
        exact absurd hke (hpre e he)
    refine ⟨fun t ht halone => ?_, hreachable⟩
    obtain ⟨e, he, hke⟩ := hentries t ht
    obtain ⟨a, ha⟩ : ∃ a, find owned entries (name t) = some a :=
      Option.isSome_iff_exists.mp (List.find?_isSome.mpr ⟨e, he, decide_eq_true hke⟩)
    obtain ⟨hsurvives, howns⟩ := hreachable _ a ha
    by_cases hsame : name a = name t
    · rw [ha]
      rw [Survives, hsame] at hsurvives
      exact hsurvives.symm.trans ht
    · exact absurd howns (halone a hsurvives hsame)

end LastNamed
