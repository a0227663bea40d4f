import Lorelei.HostRT.ThunkPath

/-!
# The next library of a thunk

Between a guest thunk and its host thunk stands a naming convention, which three scanners
read off a path: the one of the guest thunk's name, the one of the host thunk's name and
the one that names the next library. The first two take the last `.so` in any case and
the suffix `_HTL` off, the third takes a `.so` in lower case off, and the suffix from
names of host thunks only.
-/

namespace Lorelei.HostRT

open Support

/-! ## The scanners -/

/-- `getLibraryName` of the host thunk context. -/
def HostThunkContext.getLibraryName (path : Str) : Str :=
  (beforeSo (pathGetName path)).getD (pathGetName path)

/-- `normalizeThunkName`. -/
def normalizeThunkName (modulePath : Str) : Str :=
  let name := HostThunkContext.getLibraryName modulePath
  if "_HTL".toList <:+ name then name.take (name.length - 4) else name

/-- What is in front of the last place where a predicate holds of the rest. -/
def beforeLast (p : Str → Bool) : Str → Option Str
  | [] => none
  | c :: s =>
      match beforeLast p s with
      | some name => some (c :: name)
      | none => if p (c :: s) then some [] else none

/-- Whether `.so` stands here, in lower case. -/
def isLowerSo (s : Str) : Bool := s.take 3 = ".so".toList

/-- `nextLibraryByName`. -/
def nextLibraryByName (ownPath : Str) (hostThunk : Bool) : Str :=
  let base := pathGetName ownPath
  let base := (beforeLast isLowerSo base).getD base
  if hostThunk then
    (if "_HTL".toList <:+ base then base.take (base.length - 4) else base) ++ ".so".toList
  else base ++ "_HTL.so".toList

/-! ## The last place -/

section BeforeLast

variable {p : Str → Bool} {s stem rest : Str}

theorem beforeSo_eq : beforeSo = beforeLast isSo := by
  funext s
  induction s with
  | nil => rfl
  | cons c s ih =>
      show (match beforeSo s with
        | some name => some (c :: name)
        | none => if isSo (c :: s) then some [] else none) = _
      rw [ih]
      rfl

theorem beforeLast_eq_none (h : ∀ t, t <:+ s → t ≠ [] → p t = false) : beforeLast p s = none := by
  induction s with
  | nil => rfl
  | cons c s ih =>
      rw [beforeLast, ih fun t ht => h t (ht.trans (List.suffix_cons c s)),
        h _ (List.suffix_refl _) (List.cons_ne_nil c s)]
      rfl

theorem beforeLast_eq_some (hp : p rest = true) (hne : rest ≠ [])
    (h : ∀ t, t <:+ rest → t ≠ rest → t ≠ [] → p t = false) :
    beforeLast p (stem ++ rest) = some stem := by
  induction stem with
  | nil =>
      obtain ⟨c, rest, rfl⟩ := List.exists_cons_of_ne_nil hne
      have hnone : beforeLast p rest = none := by
        refine beforeLast_eq_none fun t ht => h t (ht.trans (List.suffix_cons c rest)) ?_
        rintro rfl
        exact absurd ht.length_le (Nat.not_succ_le_self _)
      rw [List.nil_append, beforeLast, hnone, hp]
      rfl
  | cons c stem ih => rw [List.cons_append, beforeLast, ih]

/-- A text is split at its last place, or there is none. -/
theorem beforeLast_cases (p : Str → Bool) (s : Str) :
    (∀ t, t <:+ s → t ≠ [] → p t = false) ∨
      ∃ stem rest, s = stem ++ rest ∧ rest ≠ [] ∧ p rest = true ∧
        ∀ t, t <:+ rest → t ≠ rest → t ≠ [] → p t = false := by
  induction s with
  | nil =>
      refine .inl fun t ht hne => ?_
      exact absurd (List.suffix_nil.mp ht) hne
  | cons c s ih =>
      rcases ih with hnone | ⟨stem, rest, rfl, hne, hp, hlast⟩
      · cases hp : p (c :: s) with
        | true =>
            refine .inr ⟨[], c :: s, rfl, List.cons_ne_nil c s, hp, fun t ht hne => ?_⟩
            rcases List.suffix_cons_iff.mp ht with rfl | ht
            · exact absurd rfl hne
            · exact hnone t ht
        | false =>
            refine .inl fun t ht => ?_
            rcases List.suffix_cons_iff.mp ht with rfl | ht
            · exact fun _ => hp
            · exact hnone t ht
      · exact .inr ⟨c :: stem, rest, rfl, hne, hp, hlast⟩

end BeforeLast

/-! ## What the scanners make of a name -/

/-- A base name is split at its last `.so` in any case; without one, behind its end. -/
structure SoSplit (base stem rest : Str) : Prop where
  eq : base = stem ++ rest
  so : rest = [] ∨ isSo rest = true
  last : ∀ t, t <:+ base → isSo t = true → rest ≠ [] ∧ rest <:+ t

theorem isSo_nil : isSo [] = false := by decide

theorem isSo_of_isLowerSo {s : Str} (h : isLowerSo s = true) : isSo s = true := by
  rw [isSo, of_decide_eq_true h]
  decide

theorem exists_soSplit (base : Str) : ∃ stem rest, SoSplit base stem rest := by
  rcases beforeLast_cases isSo base with hnone | ⟨stem, rest, rfl, hne, hso, hlast⟩
  · refine ⟨base, [], (List.append_nil base).symm, .inl rfl, fun t ht hso => ?_⟩
    by_cases hnil : t = []
    · rw [hnil, isSo_nil] at hso
      exact nomatch hso
    · rw [hnone t ht hnil] at hso
      exact nomatch hso
  · refine ⟨stem, rest, rfl, .inr hso, fun t ht hsot => ⟨hne, ?_⟩⟩
    rcases List.suffix_or_suffix_of_suffix ht (List.suffix_append stem rest) with hshort | hlong
    · by_cases hsame : t = rest
      · rw [hsame]
      · by_cases hnil : t = []
        · rw [hnil, isSo_nil] at hsot
          exact nomatch hsot
        · rw [hlast t hshort hsame hnil] at hsot
          exact nomatch hsot
    · exact hlong

section Split

variable {base stem rest : Str}

/-- The scanners of thunk names take what is in front of the last `.so`. -/
theorem SoSplit.beforeSo (h : SoSplit base stem rest) :
    (HostRT.beforeSo base).getD base = stem := by
  obtain ⟨rfl, hso, hlast⟩ := h
  rw [beforeSo_eq]
  by_cases hnil : rest = []
  · subst hnil
    rw [List.append_nil] at hlast ⊢
    rw [beforeLast_eq_none, Option.getD_none]
    intro t ht _
    exact Bool.eq_false_iff.mpr fun hsot => (hlast t ht hsot).1 rfl
  · rw [beforeLast_eq_some (hso.resolve_left hnil) hnil, Option.getD_some]
    intro t ht hne _
    refine Bool.eq_false_iff.mpr fun hsot => hne ?_
    exact ht.eq_of_length_le (hlast t (ht.trans (List.suffix_append stem rest)) hsot).2.length_le

/-- The scanner of the next library does so too, if it is in lower case. -/
theorem SoSplit.beforeLower (h : SoSplit base stem rest)
    (hlower : rest = [] ∨ isLowerSo rest = true) :
    (beforeLast isLowerSo base).getD base = stem := by
  obtain ⟨rfl, hso, hlast⟩ := h
  by_cases hnil : rest = []
  · subst hnil
    rw [List.append_nil] at hlast ⊢
    rw [beforeLast_eq_none, Option.getD_none]
    intro t ht _
    exact Bool.eq_false_iff.mpr fun hsot => (hlast t ht (isSo_of_isLowerSo hsot)).1 rfl
  · rw [beforeLast_eq_some (hlower.resolve_left hnil) hnil, Option.getD_some]
    intro t ht hne _
    refine Bool.eq_false_iff.mpr fun hsot => hne ?_
    exact ht.eq_of_length_le
      (hlast t (ht.trans (List.suffix_append stem rest)) (isSo_of_isLowerSo hsot)).2.length_le

/-- What the scanner of the next library takes of a name whose last `.so` is in another
case is not what the others take, nor that with an `_HTL` behind it. -/
theorem SoSplit.beforeLower_ne (h : SoSplit base stem rest) (hne : rest ≠ [])
    (hlower : isLowerSo rest = false) :
    ∃ more, (beforeLast isLowerSo base).getD base ++ more = stem ∧
        more ≠ [] ∧ more ≠ "_HTL".toList ∨
      (beforeLast isLowerSo base).getD base = stem ++ more ∧ more ≠ [] := by
  obtain ⟨rfl, hso, hlast⟩ := h
  rcases beforeLast_cases isLowerSo (stem ++ rest) with
    hnone | ⟨stem', rest', heq, hne', hso', hlast'⟩
  · rw [beforeLast_eq_none hnone, Option.getD_none]
    exact ⟨rest, .inr ⟨rfl, hne⟩⟩
  · -- the last `.so` in lower case is in front of the last one in any case
    have hsuffix : rest <:+ rest' :=
      (hlast rest' ⟨stem', heq.symm⟩ (isSo_of_isLowerSo hso')).2
    obtain ⟨more, rfl⟩ := hsuffix
    have hstem : stem = stem' ++ more := by
      rw [← List.append_assoc] at heq
      exact List.append_cancel_right heq
    subst hstem
    rw [List.append_assoc, beforeLast_eq_some hso' hne' hlast', Option.getD_some]
    refine ⟨more, .inl ⟨rfl, ?_, ?_⟩⟩
    · rintro rfl
      rw [List.nil_append, hlower] at hso'
      exact nomatch hso'
    · rintro rfl
      exact absurd (List.cons.inj (of_decide_eq_true hso')).1 (by decide)

end Split

/-- A name with the suffix `_HTL` taken off. -/
def dropHTL (name : Str) : Str :=
  if "_HTL".toList <:+ name then name.take (name.length - 4) else name

theorem dropHTL_append (name : Str) : dropHTL (name ++ "_HTL".toList) = name := by
  rw [dropHTL, if_pos (List.suffix_append ..), List.length_append]
  exact List.take_left

/-- It is the name without its suffix, or the name. -/
theorem dropHTL_cases (name : Str) :
    (∃ short, name = short ++ "_HTL".toList ∧ dropHTL name = short) ∨
      ¬ "_HTL".toList <:+ name ∧ dropHTL name = name := by
  by_cases h : "_HTL".toList <:+ name
  · obtain ⟨short, rfl⟩ := h
    exact .inl ⟨short, rfl, dropHTL_append short⟩
  · exact .inr ⟨h, if_neg h⟩

theorem pathGetName_of_notMem {s : Str} (h : '/' ∉ s) : pathGetName s = s := by
  refine List.rtakeWhile_eq_self_iff.mpr fun ch hch => decide_eq_true ?_
  rintro rfl
  exact h hch

theorem notMem_pathGetName (path : Str) : '/' ∉ pathGetName path := by
  intro h
  have hne := List.mem_rtakeWhile_imp h
  simp at hne

theorem soSplit_lower (stem : Str) : SoSplit (stem ++ ".so".toList) stem ".so".toList where
  eq := rfl
  so := .inr (by decide)
  last t ht hso := by
    refine ⟨by decide, ?_⟩
    rcases List.suffix_or_suffix_of_suffix ht (List.suffix_append stem ".so".toList) with
      hshort | hlong
    · have hlen : 3 ≤ t.length := by
        have htake := congrArg List.length (of_decide_eq_true hso)
        rw [str.toLower, List.length_map, List.length_take] at htake
        have : ".so".toList.length = 3 := rfl
        omega
      rw [hshort.eq_of_length_le hlen]
    · exact hlong

/-- The name of the host thunk that the convention gives leads back to the name that it was
given for. -/
theorem names_of_hostThunk {name : Str} (h : '/' ∉ name) :
    normalizeThunkName (name ++ "_HTL.so".toList) = name ∧
      nextLibraryByName (name ++ "_HTL.so".toList) true = name ++ ".so".toList := by
  have htext : name ++ "_HTL.so".toList = (name ++ "_HTL".toList) ++ ".so".toList := by
    rw [List.append_assoc]
    rfl
  have hbase : pathGetName (name ++ "_HTL.so".toList) =
      (name ++ "_HTL".toList) ++ ".so".toList := by
    rw [pathGetName_of_notMem, htext]
    rw [List.mem_append]
    rintro (hmem | hmem)
    · exact h hmem
    · revert hmem
      decide
  have hsplit := soSplit_lower (name ++ "_HTL".toList)
  constructor
  · show dropHTL ((beforeSo (pathGetName _)).getD (pathGetName _)) = name
    rw [hbase, hsplit.beforeSo, dropHTL_append]
  · show dropHTL ((beforeLast isLowerSo (pathGetName _)).getD (pathGetName _)) ++ _ = _
    rw [hbase, hsplit.beforeLower (.inr (by decide)), dropHTL_append]

/-- The name that a scanner of thunk names takes of a split name is the one that the
scanner of the next library takes exactly under this condition. -/
theorem SoSplit.agree_iff {base stem rest : Str} (h : SoSplit base stem rest) :
    dropHTL stem = (beforeLast isLowerSo base).getD base ↔
      (rest = [] ∨ isLowerSo rest = true) ∧ ¬ "_HTL".toList <:+ stem := by
  constructor
  · intro heq
    have hlower : rest = [] ∨ isLowerSo rest = true := by
      by_contra hnot
      obtain ⟨hne, hupper⟩ := not_or.mp hnot
      obtain ⟨more, ⟨hmore, hnil, hsuffix⟩ | ⟨hmore, hnil⟩⟩ :=
        h.beforeLower_ne hne (Bool.eq_false_iff.mpr hupper)
      · rw [← heq] at hmore
        rcases dropHTL_cases stem with ⟨short, hshort, hdrop⟩ | ⟨-, hdrop⟩
        · rw [hdrop, hshort] at hmore
          exact hsuffix (List.append_cancel_left hmore)
        · rw [hdrop] at hmore
          exact hnil (List.append_right_eq_self.mp hmore)
      · rw [← heq] at hmore
        have hlen := congrArg List.length hmore
        have hpos := List.length_pos_iff.mpr hnil
        rw [List.length_append] at hlen
        rcases dropHTL_cases stem with ⟨short, hshort, hdrop⟩ | ⟨-, hdrop⟩
        · rw [hdrop, hshort, List.length_append] at hlen
          omega
        · rw [hdrop] at hlen
          omega
    refine ⟨hlower, fun hsuffix => ?_⟩
    rw [h.beforeLower hlower] at heq
    obtain ⟨short, rfl⟩ := hsuffix
    rw [dropHTL_append] at heq
    have hlen := congrArg List.length heq
    rw [List.length_append] at hlen
    have hfour : "_HTL".toList.length = 4 := rfl
    omega
  · rintro ⟨hlower, hsuffix⟩
    rw [h.beforeLower hlower, dropHTL, if_neg hsuffix]

/-- The three scanners agree on a guest thunk exactly if the last `.so` of its name is in
lower case and no `_HTL` stands in front of it. -/
theorem names_agree_iff (p : Str) :
    (thunkNameOf p = normalizeThunkName (nextLibraryByName p false) ∧
        nextLibraryByName (nextLibraryByName p false) true = thunkNameOf p ++ ".so".toList) ↔
      ∀ stem rest, SoSplit (pathGetName p) stem rest →
        (rest = [] ∨ isLowerSo rest = true) ∧ ¬ "_HTL".toList <:+ stem := by
  let next := (beforeLast isLowerSo (pathGetName p)).getD (pathGetName p)
  have hnext : nextLibraryByName p false = next ++ "_HTL.so".toList := rfl
  have hname : ∀ stem rest, SoSplit (pathGetName p) stem rest → thunkNameOf p = dropHTL stem := by
    intro stem rest hsplit
    show dropHTL ((beforeSo (pathGetName p)).getD (pathGetName p)) = _
    rw [hsplit.beforeSo]
  have hslash : '/' ∉ next := by
    have hbase := notMem_pathGetName p
    show '/' ∉ (beforeLast isLowerSo (pathGetName p)).getD (pathGetName p)
    rcases beforeLast_cases isLowerSo (pathGetName p) with
      hnone | ⟨stem, rest, heq, hne, hso, hlast⟩
    · rwa [beforeLast_eq_none hnone]
    · rw [heq] at hbase ⊢
      rw [beforeLast_eq_some hso hne hlast]
      exact fun hmem => hbase (List.mem_append_left _ hmem)
  obtain ⟨hback, hagain⟩ := names_of_hostThunk hslash
  rw [hnext, hback, hagain]
  constructor
  · rintro ⟨heq, -⟩ stem rest hsplit
    exact hsplit.agree_iff.mp ((hname stem rest hsplit).symm.trans heq)
  · intro h
    obtain ⟨stem, rest, hsplit⟩ := exists_soSplit (pathGetName p)
    have heq : thunkNameOf p = next :=
      (hname stem rest hsplit).trans (hsplit.agree_iff.mpr (h stem rest hsplit))
    rw [heq]
    exact ⟨rfl, rfl⟩

/-- `libfoo.SO` has no `.so` in lower case. -/
theorem not_names_agree :
    ∃ p : Str, pathGetName p ≠ [] ∧
      thunkNameOf p ≠ normalizeThunkName (nextLibraryByName p false) :=
  ⟨"/thunks/libfoo.SO".toList, by decide, by decide⟩

end Lorelei.HostRT
