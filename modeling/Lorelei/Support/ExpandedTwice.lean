import Mathlib.Data.List.Chain
import Lorelei.Support.Expansion

/-!
# Texts that are expanded again

A text that has been expanded is text, and to expand it again is to read what the values
brought into it as a template. It stays as it is if no dollar in it stands in front of a
dollar or an opening brace. Otherwise the expansion takes a `$$` apart or replaces a
reference, which changes the text unless the values write the same one again.
-/

namespace Lorelei.Support

variable {find : Str → Str} {expand : Str → Expansion} {s : Str} {ps : List Piece}

/-- No dollar stands in front of a dollar or of an opening brace. -/
def Inert (s : Str) : Prop := s.IsChain fun c d => c = '$' → d ≠ '$' ∧ d ≠ '{'

instance : DecidablePred Inert := fun s => inferInstanceAs (Decidable (s.IsChain _))

/-- The text has references, all of them closed, and the values of these, put in their places,
make the same text again. -/
def Reproduces (find : Str → Str) (s : Str) : Prop :=
  ∃ ps, pieces s = some ps ∧ (∃ name nested, .ref name nested ∈ ps) ∧
    varexpPost ((marks find (varexpRun find) ps).flatMap Mark.raw) = s

/-! ## The text of a template -/

/-- What a piece was read from. -/
def Piece.source : Piece → Str
  | .char c => [c]
  | .dollar => ['$', '$']
  | .ref name _ => '$' :: '{' :: (name ++ ['}'])

/-- A template is put together from what its pieces were read from. -/
theorem flatMap_source (h : pieces s = some ps) : ps.flatMap Piece.source = s := by
  induction s using pieces.induct generalizing ps with
  | case1 =>
      rw [pieces] at h
      obtain rfl := Option.some.inj h
      rfl
  | case2 s hnone =>
      rw [pieces_ref, hnone] at h
      cases h
  | case3 s name rest nested hsome hrest ih =>
      rw [pieces_ref, hsome] at h
      obtain ⟨ps', hps', rfl⟩ := Option.map_eq_some_iff.mp h
      obtain ⟨rfl, -, -⟩ := closeBrace_eq_some_iff.mp hsome
      rw [List.flatMap_cons, ih hps', Piece.source]
      simp
  | case4 s ih =>
      rw [pieces] at h
      obtain ⟨ps', hps', rfl⟩ := Option.map_eq_some_iff.mp h
      rw [List.flatMap_cons, ih hps']
      rfl
  | case5 c s hbrace hdollar ih =>
      rw [pieces] at h
      · obtain ⟨ps', hps', rfl⟩ := Option.map_eq_some_iff.mp h
        rw [List.flatMap_cons, ih hps']
        rfl
      · exact hbrace
      · exact hdollar

/-- Without references, the marks stand for the text. -/
theorem flatMap_raw_of_noRef (h : pieces s = some ps)
    (href : ∀ name nested, .ref name nested ∉ ps) :
    (marks find expand ps).flatMap Mark.raw = s := by
  rw [← flatMap_source h, marks, List.flatMap_assoc]
  refine List.flatMap_congr fun p hp => ?_
  cases p with
  | char c => rfl
  | dollar => rfl
  | ref name nested => exact absurd hp (href name nested)

/-! ## Inert texts -/

theorem pieces_of_inert (h : Inert s) : pieces s = some (s.map .char) := by
  induction s with
  | nil => rw [pieces]; rfl
  | cons c s ih =>
      have hnext : ∀ d, c = '$' → ['$', d] <+: c :: s → d ≠ '$' ∧ d ≠ '{' := by
        rintro d hc ⟨t, ht⟩
        obtain ⟨-, rfl⟩ := List.cons.inj ht
        exact (List.isChain_cons_cons.mp h).1 hc
      have hfirst : ∀ d, ['$', d] <+: c :: s → c = '$' := by
        rintro d ⟨t, ht⟩
        exact (List.cons.inj ht).1.symm
      rw [pieces_char, ih h.tail]
      · rfl
      · exact fun hbrace => (hnext '{' (hfirst _ hbrace) hbrace).2 rfl
      · exact fun hdollar => (hnext '$' (hfirst _ hdollar) hdollar).1 rfl

theorem varexpPost_of_inert (h : Inert s) : varexpPost s = s := by
  induction s with
  | nil => rfl
  | cons c s ih =>
      rw [varexpPost_cons, ih h.tail]
      rintro ⟨t, ht⟩
      obtain ⟨hc, rfl⟩ := List.cons.inj ht
      exact ((List.isChain_cons_cons.mp h).1 hc.symm).1 rfl

theorem inert_of_pieces (h : pieces s = some ps) (hchar : ∀ p ∈ ps, ∃ c, p = .char c) :
    Inert s := by
  induction s using pieces.induct generalizing ps with
  | case1 => exact List.isChain_nil
  | case2 s hnone =>
      rw [pieces_ref, hnone] at h
      cases h
  | case3 s name rest nested hsome hrest ih =>
      rw [pieces_ref, hsome] at h
      obtain ⟨ps', hps', rfl⟩ := Option.map_eq_some_iff.mp h
      obtain ⟨c, hc⟩ := hchar _ List.mem_cons_self
      cases hc
  | case4 s ih =>
      rw [pieces] at h
      obtain ⟨ps', hps', rfl⟩ := Option.map_eq_some_iff.mp h
      obtain ⟨c, hc⟩ := hchar _ List.mem_cons_self
      cases hc
  | case5 c s hbrace hdollar ih =>
      rw [pieces] at h
      · obtain ⟨ps', hps', rfl⟩ := Option.map_eq_some_iff.mp h
        have hs := ih hps' fun p hp => hchar p (List.mem_cons_of_mem _ hp)
        cases s with
        | nil => exact List.isChain_singleton _
        | cons d s =>
            refine List.isChain_cons_cons.mpr ⟨?_, hs⟩
            rintro rfl
            constructor
            · rintro rfl
              exact hdollar s rfl rfl
            · rintro rfl
              exact hbrace s rfl rfl
      · exact hbrace
      · exact hdollar

/-- A `$$` is written with more characters than it stands for. -/
theorem length_marks_le (ms : List Mark) : ms.length ≤ (ms.flatMap Mark.raw).length := by
  induction ms with
  | nil => exact Nat.le_refl 0
  | cons m ms ih =>
      rw [List.flatMap_cons, List.length_append, List.length_cons]
      cases m <;> simp only [Mark.raw, List.length_cons, List.length_nil] <;> omega

theorem length_marks_lt {ms : List Mark} (h : .dollar ∈ ms) :
    ms.length < (ms.flatMap Mark.raw).length := by
  obtain ⟨pre, post, rfl⟩ := List.append_of_mem h
  have hpre := length_marks_le pre
  have hpost := length_marks_le post
  simp only [List.flatMap_append, List.flatMap_cons, List.length_append, List.length_cons,
    Mark.raw, List.length_nil]
  omega

/-- Taking the `$$` apart changes a text without references that has any. -/
theorem inert_of_varexpPost (h : pieces s = some ps) (href : ∀ name nested, .ref name nested ∉ ps)
    (hpost : varexpPost s = s) : Inert s := by
  refine inert_of_pieces h fun p hp => ?_
  cases p with
  | char c => exact ⟨c, rfl⟩
  | ref name nested => exact absurd hp (href name nested)
  | dollar =>
      let ms := marks (fun _ => []) (fun _ => ([], [])) ps
      have hraw : ms.flatMap Mark.raw = s := flatMap_raw_of_noRef h href
      have hmem : .dollar ∈ ms := List.mem_flatMap.mpr ⟨.dollar, hp, List.mem_singleton_self _⟩
      have hlt := length_marks_lt hmem
      have hle := length_varexpPost_le false ms
      have hopen : openRun false ++ ms.flatMap Mark.raw = ms.flatMap Mark.raw := rfl
      rw [hopen, hraw, hpost] at hle
      rw [hraw] at hlt
      exact absurd (hlt.trans_le hle) (by simp [openRun])

theorem varexp_eq_of_pieces (h : pieces s = some ps) :
    varexp find s = varexpPost ((marks find (varexpRun find) ps).flatMap Mark.raw) :=
  congrArg Prod.snd (varexpRun_of_pieces h)

theorem Inert.notRef (h : Inert s) (hps : pieces s = some ps) (name : Str) (nested : Bool) :
    .ref name nested ∉ ps := by
  intro hmem
  obtain rfl := Option.some.inj ((pieces_of_inert h).symm.trans hps)
  obtain ⟨c, -, hc⟩ := List.mem_map.mp hmem
  cases hc

/-- The expansion leaves a text as it is exactly if nothing in it is there to be expanded, or
the values of its references make it again. -/
theorem varexp_eq_self_iff (find : Str → Str) (s : Str) :
    varexp find s = s ↔ Inert s ∨ Reproduces find s := by
  cases hps : pieces s with
  | none =>
      have hempty : varexp find s = [] := congrArg Prod.snd (varexpRun_of_pieces_none hps)
      rw [hempty]
      constructor
      · rintro rfl
        rw [pieces] at hps
        cases hps
      · rintro (hinert | ⟨ps, hps', -⟩)
        · cases hps.symm.trans (pieces_of_inert hinert)
        · cases hps.symm.trans hps'
  | some ps =>
      rw [varexp_eq_of_pieces hps]
      by_cases href : ∃ name nested, .ref name nested ∈ ps
      · constructor
        · exact fun heq => .inr ⟨ps, hps, href, heq⟩
        · rintro (hinert | ⟨ps', hps', -, heq⟩)
          · obtain ⟨name, nested, hmem⟩ := href
            exact absurd hmem (hinert.notRef hps name nested)
          · obtain rfl := Option.some.inj (hps.symm.trans hps')
            exact heq
      · have hno : ∀ name nested, .ref name nested ∉ ps :=
          fun name nested hmem => href ⟨name, nested, hmem⟩
        rw [flatMap_raw_of_noRef hps hno]
        constructor
        · exact fun heq => .inl (inert_of_varexpPost hps hno heq)
        · rintro (hinert | ⟨ps', hps', href', -⟩)
          · exact varexpPost_of_inert hinert
          · obtain rfl := Option.some.inj (hps.symm.trans hps')
            exact absurd href' href

/-! ## Texts that their references make again -/

theorem count_varexpPost_le (s : Str) : (varexpPost s).count '$' ≤ s.count '$' := by
  induction s using varexpPost.induct with
  | case1 => exact Nat.le_refl 0
  | case2 s ih =>
      rw [varexpPost, List.count_cons_self, List.count_cons_self, List.count_cons_self]
      omega
  | case3 c s hdollar ih =>
      rw [varexpPost, List.count_cons, List.count_cons]
      · omega
      · exact hdollar

/-- The name that is looked up for a reference. -/
def keyOf (expand : Str → Expansion) (name : Str) (nested : Bool) : Str :=
  if nested then (expand name).2 else name

/-- The values of the references have no dollar in them. -/
def DollarFree (find : Str → Str) (expand : Str → Expansion) (ps : List Piece) : Prop :=
  ∀ name nested, .ref name nested ∈ ps → '$' ∉ find (keyOf expand name nested)

theorem count_raw_ref {name : Str} {nested : Bool} (h : '$' ∉ find (keyOf expand name nested)) :
    (((Piece.ref name nested).marks find expand).flatMap Mark.raw).count '$' <
      (Piece.ref name nested).source.count '$' := by
  have hvalue : ((Piece.ref name nested).marks find expand).flatMap Mark.raw =
      find (keyOf expand name nested) := by
    cases nested <;> simp [Piece.marks, keyOf, List.flatMap_map, Mark.raw]
  rw [hvalue, List.count_eq_zero.mpr h, Piece.source, List.count_cons_self]
  exact Nat.succ_pos _

theorem count_raw_le (h : DollarFree find expand ps) :
    ((marks find expand ps).flatMap Mark.raw).count '$' ≤ (ps.flatMap Piece.source).count '$' := by
  induction ps with
  | nil => exact Nat.le_refl 0
  | cons p ps ih =>
      rw [marks, List.flatMap_cons, List.flatMap_append, List.count_append, List.flatMap_cons,
        List.count_append]
      refine Nat.add_le_add ?_
        (ih fun name nested hmem => h name nested (List.mem_cons_of_mem p hmem))
      cases p with
      | char c => exact Nat.le_refl _
      | dollar => exact Nat.le_refl _
      | ref name nested => exact (count_raw_ref (h name nested List.mem_cons_self)).le

theorem count_raw_lt (h : DollarFree find expand ps) (href : ∃ name nested, .ref name nested ∈ ps) :
    ((marks find expand ps).flatMap Mark.raw).count '$' < (ps.flatMap Piece.source).count '$' := by
  obtain ⟨name, nested, hmem⟩ := href
  obtain ⟨pre, post, rfl⟩ := List.append_of_mem hmem
  have hpre : DollarFree find expand pre := fun name nested hmem =>
    h name nested (List.mem_append_left _ hmem)
  have hpost : DollarFree find expand post := fun name nested hmem =>
    h name nested (List.mem_append_right _ (List.mem_cons_of_mem _ hmem))
  have hlt := count_raw_ref (h name nested hmem)
  have hle := count_raw_le hpre
  have hle' := count_raw_le hpost
  rw [marks] at hle hle' ⊢
  simp only [List.flatMap_append, List.flatMap_cons, List.count_append] at hle hle' hlt ⊢
  omega

/-- Only values with a dollar in them make references again. -/
theorem Reproduces.exists_dollar (h : Reproduces find s) :
    ∃ name ∈ (varexpRun find s).1, '$' ∈ find name := by
  obtain ⟨ps, hps, href, heq⟩ := h
  by_contra hnone
  have hfree : DollarFree find (varexpRun find) ps := by
    intro name nested hmem hdollar
    refine hnone ⟨_, ?_, hdollar⟩
    rw [varexpRun_of_pieces hps]
    refine List.mem_flatMap.mpr ⟨_, hmem, ?_⟩
    cases nested with
    | false => exact List.mem_singleton_self _
    | true => exact List.mem_append_right _ (List.mem_singleton_self _)
  have hlt := count_raw_lt hfree href
  have hle := count_varexpPost_le ((marks find (varexpRun find) ps).flatMap Mark.raw)
  rw [heq, ← flatMap_source hps] at hle
  omega

end Lorelei.Support
