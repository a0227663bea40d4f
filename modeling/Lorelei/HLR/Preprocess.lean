import Lorelei.Lib.Occurrence
import Lorelei.Support.StringExtras

/-!
# Replacing marked macros

`replaceMacros` walks through a source text, whose macros have been marked by a pair of
tags, and puts the text that the preprocessor has made of each in place of the pair. The
buffer of the source file is followed by a NUL.
-/

namespace Lorelei.HLR

open Support Occurrence

def macroBeginTag : Str := "/*__LORELEI_MACRO_BEGIN__*/".toList

def macroEndTag : Str := "/*__LORELEI_MACRO_END__*/".toList

/-! ## The code -/

/-- A pair of tags is taken off a text. -/
theorem length_lt_of_pair {code lead rest content after : Str}
    (hbegin : cutAt macroBeginTag code = some (lead, rest))
    (hend : cutAt macroEndTag rest = some (content, after)) : after.length < code.length := by
  have hlead := length_of_cutAt hbegin
  have hcontent := length_of_cutAt hend
  have htag : macroBeginTag.length = 27 := rfl
  omega

/-- The expansions in the preprocessed code, from an index on. -/
def collectExpansions (preprocessedCode : Str) : List Str :=
  match hbegin : cutAt macroBeginTag preprocessedCode with
  | none => []
  | some (_, code) =>
      match hend : cutAt macroEndTag code with
      | none => []
      | some (content, rest) =>
          have := length_lt_of_pair hbegin hend
          content :: collectExpansions rest
termination_by preprocessedCode.length

/-- The views of the result, for the original code from an index on and the expansions that
are left. A view made of an address alone is a C string. -/
def resultViews (expansions : List Str) (orgCode : Str) : List Str :=
  if orgCode = [] then []
  else
    match hbegin : cutAt macroBeginTag orgCode with
    | none => [cString orgCode]
    | some (lead, code) =>
        match hend : cutAt macroEndTag code with
        | none => [lead, cString (macroBeginTag ++ code)]
        | some (content, rest) =>
            have := length_lt_of_pair hbegin hend
            lead :: expansions.headD content :: resultViews expansions.tail rest
termination_by orgCode.length

/-- `replaceMacros`. -/
def replaceMacros (orgCode preprocessedCode : Str) : Str :=
  (resultViews (collectExpansions preprocessedCode) orgCode).flatten

/-! ## What it is for -/

/-- The pairs of tags that are found from left to right, each with what is in front of it and
its content, and what is left behind the last one. -/
inductive Pairs : Str → List (Str × Str) → Str → Prop where
  | done {code : Str} :
      (∀ lead content rest after, IsFirst macroBeginTag lead rest code →
        ¬ IsFirst macroEndTag content after rest) → Pairs code [] code
  | pair {code lead rest content after tail : Str} {pairs : List (Str × Str)} :
      IsFirst macroBeginTag lead rest code → IsFirst macroEndTag content after rest →
      Pairs after pairs tail → Pairs code ((lead, content) :: pairs) tail

/-- Each pair is replaced by the next text, or by its own content when there are no more. -/
def substitute : List (Str × Str) → List Str → Str → Str
  | [], _, tail => tail
  | (lead, content) :: pairs, texts, tail =>
      lead ++ (texts.headD content ++ substitute pairs texts.tail tail)

/-- The result is the original code with the contents of the pairs of the preprocessed code
in place of its own pairs. -/
def Substitutes (orgCode preprocessedCode result : Str) : Prop :=
  ∀ pairs tail pairs' tail', Pairs orgCode pairs tail → Pairs preprocessedCode pairs' tail' →
    result = substitute pairs (pairs'.map Prod.snd) tail

/-! ## One pair after the other -/

section Equations

variable {code lead rest content after : Str} {expansions : List Str}

theorem collectExpansions_of_none
    (h : ∀ lead content rest after, IsFirst macroBeginTag lead rest code →
      ¬ IsFirst macroEndTag content after rest) : collectExpansions code = [] := by
  rw [collectExpansions]
  split
  next => rfl
  next lead rest hbegin =>
    split
    next => rfl
    next content after hend =>
      exact absurd (cutAt_eq_some_iff.mp hend) (h _ _ _ _ (cutAt_eq_some_iff.mp hbegin))

theorem collectExpansions_of_some (hbegin : IsFirst macroBeginTag lead rest code)
    (hend : IsFirst macroEndTag content after rest) :
    collectExpansions code = content :: collectExpansions after := by
  rw [← cutAt_eq_some_iff] at hbegin hend
  rw [collectExpansions]
  split
  next hnone =>
    rw [hbegin] at hnone
    cases hnone
  next lead' rest' hbegin' =>
    rw [hbegin] at hbegin'
    cases hbegin'
    split
    next hnone =>
      rw [hend] at hnone
      cases hnone
    next content' after' hend' =>
      rw [hend] at hend'
      cases hend'
      rfl

/-- What is left behind the last pair, as far as the code keeps it: a view of an unpaired
begin tag, or of the rest of the text, ends at a NUL. -/
def keptTail (tail : Str) : Str :=
  match cutAt macroBeginTag tail with
  | none => cString tail
  | some (lead, rest) => lead ++ cString (macroBeginTag ++ rest)

theorem flatten_resultViews_of_none
    (h : ∀ lead content rest after, IsFirst macroBeginTag lead rest code →
      ¬ IsFirst macroEndTag content after rest) :
    (resultViews expansions code).flatten = keptTail code := by
  rw [resultViews, keptTail]
  split
  next hnil =>
    subst hnil
    rfl
  next =>
    split
    next hnone => rw [hnone, List.flatten_singleton]
    next lead rest hbegin =>
      split
      next => simp [hbegin]
      next content after hend =>
        exact absurd (cutAt_eq_some_iff.mp hend) (h _ _ _ _ (cutAt_eq_some_iff.mp hbegin))

theorem resultViews_of_some (hbegin : IsFirst macroBeginTag lead rest code)
    (hend : IsFirst macroEndTag content after rest) :
    resultViews expansions code =
      lead :: expansions.headD content :: resultViews expansions.tail after := by
  have hne : code ≠ [] := by
    intro hnil
    have hlen := length_of_cutAt (cutAt_eq_some_iff.mpr hbegin)
    have htag : macroBeginTag.length = 27 := rfl
    rw [hnil, htag, List.length_nil] at hlen
    omega
  rw [← cutAt_eq_some_iff] at hbegin hend
  rw [resultViews, if_neg hne]
  split
  next hnone =>
    rw [hbegin] at hnone
    cases hnone
  next lead' rest' hbegin' =>
    rw [hbegin] at hbegin'
    cases hbegin'
    split
    next hnone =>
      rw [hend] at hnone
      cases hnone
    next content' after' hend' =>
      rw [hend] at hend'
      cases hend'
      rfl

end Equations

/-! ## The pairs of a text -/

variable {orgCode preprocessedCode code tail : Str} {pairs : List (Str × Str)}

theorem exists_pairs (code : Str) : ∃ pairs tail, Pairs code pairs tail := by
  induction hn : code.length using Nat.strong_induction_on generalizing code with
  | _ n ih =>
      by_cases h : ∀ lead content rest after, IsFirst macroBeginTag lead rest code →
          ¬ IsFirst macroEndTag content after rest
      · exact ⟨[], code, .done h⟩
      · push Not at h
        obtain ⟨lead, content, rest, after, hbegin, hend⟩ := h
        have hlt := length_lt_of_pair (cutAt_eq_some_iff.mpr hbegin) (cutAt_eq_some_iff.mpr hend)
        obtain ⟨pairs, tail, hpairs⟩ := ih _ (hn ▸ hlt) after rfl
        exact ⟨_, tail, .pair hbegin hend hpairs⟩

theorem Pairs.collectExpansions_eq (h : Pairs code pairs tail) :
    collectExpansions code = pairs.map Prod.snd := by
  induction h with
  | done h => exact collectExpansions_of_none h
  | pair hbegin hend _ ih => rw [collectExpansions_of_some hbegin hend, ih, List.map_cons]

theorem Pairs.flatten_resultViews (h : Pairs code pairs tail) (expansions : List Str) :
    (resultViews expansions code).flatten = substitute pairs expansions (keptTail tail) := by
  induction h generalizing expansions with
  | done h => exact flatten_resultViews_of_none h
  | pair hbegin hend _ ih =>
      rw [resultViews_of_some hbegin hend, List.flatten_cons, List.flatten_cons, ih, substitute]

theorem substitute_inj {texts : List Str} {tail' : Str} :
    substitute pairs texts tail = substitute pairs texts tail' ↔ tail = tail' := by
  induction pairs generalizing texts with
  | nil => rfl
  | cons pair pairs ih =>
      rw [substitute, substitute, List.append_cancel_left_eq, List.append_cancel_left_eq, ih]

/-! ## What is kept behind the last pair -/

/-- No NUL stands behind an unpaired begin tag, or anywhere if there is none. -/
def NulFree (tail : Str) : Prop :=
  (∀ lead rest, IsFirst macroBeginTag lead rest tail → '\x00' ∉ rest) ∧
    ((∀ lead rest, ¬ IsFirst macroBeginTag lead rest tail) → '\x00' ∉ tail)

theorem keptTail_eq_self_iff : keptTail tail = tail ↔ NulFree tail := by
  rw [keptTail, NulFree]
  split
  next hnone =>
    have hfirst := cutAt_eq_none_iff.mp hnone
    rw [cString_eq_self_iff]
    exact ⟨fun h => ⟨fun lead rest hl => absurd hl (hfirst lead rest), fun _ => h⟩,
      fun h => h.2 hfirst⟩
  next lead rest hbegin =>
    have hfirst := cutAt_eq_some_iff.mp hbegin
    have hiff : lead ++ cString (macroBeginTag ++ rest) = tail ↔
        '\x00' ∉ macroBeginTag ++ rest := by
      rw [← cString_eq_self_iff, hfirst.eq, List.append_cancel_left_eq]
    rw [hiff, List.mem_append, not_or]
    constructor
    · rintro ⟨-, hrest⟩
      refine ⟨fun lead' rest' h' => ?_, fun hnone => absurd hfirst (hnone lead rest)⟩
      rwa [← (hfirst.unique h').2]
    · intro h
      exact ⟨by decide, h.1 lead rest hfirst⟩

/-! ## Where the code does what it is for -/

/-- The result is as it should be exactly if no NUL stands behind the last pair of tags, or
behind the begin tag that is left there. -/
theorem replaceMacros_iff :
    Substitutes orgCode preprocessedCode (replaceMacros orgCode preprocessedCode) ↔
      ∀ pairs tail, Pairs orgCode pairs tail → NulFree tail := by
  obtain ⟨pairs', tail', hpairs'⟩ := exists_pairs preprocessedCode
  have hresult {pairs : List (Str × Str)} {tail : Str} (h : Pairs orgCode pairs tail) :
      replaceMacros orgCode preprocessedCode =
        substitute pairs (collectExpansions preprocessedCode) (keptTail tail) :=
    h.flatten_resultViews _
  constructor
  · intro h pairs tail hpairs
    have heq := h pairs tail pairs' tail' hpairs hpairs'
    rw [hresult hpairs, hpairs'.collectExpansions_eq, substitute_inj] at heq
    exact keptTail_eq_self_iff.mp heq
  · intro h pairs tail pairs' tail' hpairs hpairs'
    rw [hresult hpairs, hpairs'.collectExpansions_eq, keptTail_eq_self_iff.mpr (h _ _ hpairs)]

/-- A NUL in a comment. -/
def commentWithNul : Str := "int x; // \x00\nint y;\n".toList

/-- What follows the NUL is lost. -/
theorem not_substitutes :
    ¬ Substitutes commentWithNul commentWithNul (replaceMacros commentWithNul commentWithNul) := by
  have hcut : cutAt macroBeginTag commentWithNul = none := rfl
  have hpairs : Pairs commentWithNul [] commentWithNul :=
    .done fun lead content rest after hbegin => absurd hbegin (cutAt_eq_none_iff.mp hcut lead rest)
  intro h
  have heq : replaceMacros commentWithNul commentWithNul = commentWithNul :=
    h [] commentWithNul [] commentWithNul hpairs hpairs
  have hresult := hpairs.flatten_resultViews (collectExpansions commentWithNul)
  rw [substitute, keptTail, hcut] at hresult
  exact absurd (cString_eq_self_iff.mp (hresult.symm.trans heq)) (by decide)

end Lorelei.HLR
