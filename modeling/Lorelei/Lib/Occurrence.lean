import Mathlib.Data.List.Infix

/-!
# The first occurrence of a text in a text

`cutAt` takes a text apart at the first place where another one stands in it. Cutting what
follows again and again gives the tokens of the text (`CutInto`): put together with the pattern
between them they are the text, and none of them contains the pattern. Tokens that do not
contain a pattern of one element are those of the text that they are put together to.
-/

namespace Occurrence

variable {α : Type*}

/-- `pat` stands in `s` between `before` and `after`, and nowhere further in front. -/
structure IsFirst (pat before after s : List α) : Prop where
  eq : s = before ++ (pat ++ after)
  first : ∀ b a, s = b ++ (pat ++ a) → before.length ≤ b.length

section

variable {pat s before after : List α} {c : α}

theorem IsFirst.unique {before' after' : List α} (h : IsFirst pat before after s)
    (h' : IsFirst pat before' after' s) : before = before' ∧ after = after' := by
  have hlen : before.length = before'.length :=
    Nat.le_antisymm (h.first _ _ h'.eq) (h'.first _ _ h.eq)
  obtain ⟨hbefore, hrest⟩ := List.append_inj (h.eq.symm.trans h'.eq) hlen
  exact ⟨hbefore, List.append_cancel_left hrest⟩

theorem isFirst_nil : IsFirst pat [] after (pat ++ after) :=
  ⟨rfl, fun _ _ _ => Nat.zero_le _⟩

/-- The first place is the same with a character in front at which `pat` does not stand. -/
theorem isFirst_cons (hc : ¬ pat <+: c :: s) :
    IsFirst pat (c :: before) after (c :: s) ↔ IsFirst pat before after s := by
  constructor
  · intro h
    refine ⟨(List.cons.inj h.eq).2, fun b a heq => ?_⟩
    exact Nat.le_of_succ_le_succ (h.first (c :: b) a (congrArg (c :: ·) heq))
  · intro h
    refine ⟨congrArg (c :: ·) h.eq, fun b a heq => ?_⟩
    cases b with
    | nil => exact absurd ⟨a, heq.symm⟩ hc
    | cons c' b => exact Nat.succ_le_succ (h.first b a (List.cons.inj heq).2)

theorem IsFirst.ne_nil (h : IsFirst pat before after (c :: s)) (hc : ¬ pat <+: c :: s) :
    ∃ before', before = c :: before' := by
  cases before with
  | nil => exact absurd ⟨after, h.eq.symm⟩ hc
  | cons c' before => exact ⟨before, by rw [(List.cons.inj h.eq).1]⟩

end

variable [DecidableEq α] {pat s before after : List α}

/-- What is in front of the first occurrence of `pat`, and what follows it. -/
def cutAt (pat : List α) : List α → Option (List α × List α)
  | [] => if pat = [] then some ([], []) else none
  | c :: s =>
      if pat <+: c :: s then some ([], (c :: s).drop pat.length)
      else (cutAt pat s).map fun r => (c :: r.1, r.2)

theorem cutAt_eq_some_iff : cutAt pat s = some (before, after) ↔ IsFirst pat before after s := by
  induction s generalizing before with
  | nil =>
      rw [cutAt]
      constructor
      · intro h
        obtain ⟨hpat, h⟩ := Option.ite_none_right_eq_some.mp h
        cases h
        subst hpat
        exact isFirst_nil
      · intro h
        obtain ⟨rfl, hrest⟩ := List.append_eq_nil_iff.mp h.eq.symm
        obtain ⟨rfl, rfl⟩ := List.append_eq_nil_iff.mp hrest
        rfl
  | cons c s ih =>
      rw [cutAt]
      by_cases hc : pat <+: c :: s
      · rw [if_pos hc]
        obtain ⟨rest, hrest⟩ := hc
        rw [← hrest, List.drop_left]
        constructor
        · intro h
          cases h
          exact isFirst_nil
        · intro h
          obtain ⟨rfl, rfl⟩ := isFirst_nil.unique h
          rfl
      · rw [if_neg hc]
        constructor
        · intro h
          obtain ⟨⟨b, a⟩, hr, heq⟩ := Option.map_eq_some_iff.mp h
          cases heq
          exact (isFirst_cons hc).mpr (ih.mp hr)
        · intro h
          obtain ⟨b, rfl⟩ := h.ne_nil hc
          rw [ih.mpr ((isFirst_cons hc).mp h)]
          rfl

theorem cutAt_eq_none_iff : cutAt pat s = none ↔ ∀ b a, ¬ IsFirst pat b a s := by
  rw [Option.eq_none_iff_forall_ne_some]
  exact ⟨fun h b a hfirst => h (b, a) (cutAt_eq_some_iff.mpr hfirst),
    fun h r hr => h r.1 r.2 (cutAt_eq_some_iff.mp hr)⟩

theorem length_of_cutAt (h : cutAt pat s = some (before, after)) :
    before.length + pat.length + after.length = s.length := by
  have heq := congrArg List.length (cutAt_eq_some_iff.mp h).eq
  rw [List.length_append, List.length_append] at heq
  omega

/-! ## Patterns that start with a mark -/

omit [DecidableEq α] in
/-- A pattern that starts with a mark stands first where the mark does, if no end of the mark
is a beginning of it. -/
theorem isFirst_of_mark (mark : List α) (hmark : mark <+: pat)
    (hborder : ∀ i < mark.length, 0 < i → ¬ mark.drop i <+: mark)
    (hbefore : ¬ mark <:+: before) : IsFirst pat before after (before ++ (pat ++ after)) := by
  refine ⟨rfl, fun b a heq => ?_⟩
  by_contra hlt
  obtain ⟨middle, rfl⟩ : ∃ middle, before = b ++ middle := by
    obtain ⟨middle, hmiddle⟩ := List.prefix_of_prefix_length_le ⟨pat ++ a, heq.symm⟩
      (List.prefix_append before (pat ++ after)) (by omega)
    exact ⟨middle, hmiddle.symm⟩
  rw [List.append_assoc, List.append_cancel_left_eq] at heq
  have hne : middle ≠ [] := by
    rintro rfl
    simp at hlt
  have hhere : mark <+: middle ++ (pat ++ after) := heq ▸ hmark.trans (List.prefix_append pat a)
  rcases Nat.le_total mark.length middle.length with hle | hle
  · have hinfix := List.prefix_of_prefix_length_le hhere (List.prefix_append _ _) hle
    exact hbefore (List.IsInfix.trans hinfix.isInfix (List.suffix_append b middle).isInfix)
  · obtain ⟨rest, hrest⟩ := List.prefix_of_prefix_length_le (List.prefix_append _ _) hhere hle
    by_cases hnil : rest = []
    · rw [hnil, List.append_nil] at hrest
      exact hbefore (hrest ▸ (List.suffix_append b middle).isInfix)
    · have hlen := congrArg List.length hrest
      have hpos := List.length_pos_iff.mpr hne
      have hpos' := List.length_pos_iff.mpr hnil
      rw [List.length_append] at hlen
      refine hborder middle.length (by omega) hpos ?_
      rw [← hrest, List.drop_left, hrest]
      have hpat : rest <+: pat ++ after := by
        rw [← hrest, List.prefix_append_right_inj] at hhere
        exact hhere
      exact List.prefix_of_prefix_length_le hpat (hmark.trans (List.prefix_append _ _)) (by omega)

/-! ## Cutting at every occurrence -/

omit [DecidableEq α]

/-- What stands between the occurrences of a pattern, which is looked for again behind each
of them. -/
inductive CutInto (pat : List α) : List α → List (List α) → Prop
  | last {s : List α} : (∀ b a, ¬ IsFirst pat b a s) → CutInto pat s [s]
  | cut {s before after : List α} {tokens : List (List α)} :
      IsFirst pat before after s → CutInto pat after tokens → CutInto pat s (before :: tokens)

variable {tokens : List (List α)}

theorem CutInto.ne_nil (h : CutInto pat s tokens) : tokens ≠ [] := by
  cases h <;> exact List.cons_ne_nil _ _

/-- The tokens with the pattern between them are the text. -/
theorem CutInto.intercalate (h : CutInto pat s tokens) : pat.intercalate tokens = s := by
  induction h with
  | last => exact List.intercalate_singleton
  | cut hfirst hrest ih =>
      rw [List.intercalate_cons_of_ne_nil hrest.ne_nil, ih, hfirst.eq, List.append_assoc]

/-- Where the pattern occurs at all, it has a first occurrence. -/
theorem exists_isFirst (h : pat <:+: s) : ∃ before after, IsFirst pat before after s := by
  classical
  by_contra hnone
  have hcut : cutAt pat s = none := cutAt_eq_none_iff.mpr fun b a hfirst => hnone ⟨b, a, hfirst⟩
  induction s with
  | nil =>
      rw [cutAt, if_pos (List.infix_nil.mp h)] at hcut
      cases hcut
  | cons c s ih =>
      rw [cutAt] at hcut
      by_cases hc : pat <+: c :: s
      · rw [if_pos hc] at hcut
        cases hcut
      · rw [if_neg hc, Option.map_eq_none_iff] at hcut
        refine ih ((List.infix_cons_iff.mp h).resolve_left hc) ?_ hcut
        rintro ⟨before, after, hfirst⟩
        exact hnone ⟨c :: before, after, (isFirst_cons hc).mpr hfirst⟩

/-- In front of its first occurrence the pattern does not occur. -/
theorem IsFirst.not_infix (h : IsFirst pat before after s) (hpat : pat ≠ []) :
    ¬ pat <:+: before := by
  rintro ⟨b, a, heq⟩
  have hle := h.first b (a ++ (pat ++ after)) (by rw [h.eq, ← heq]; simp)
  have hlen := congrArg List.length heq
  have hpos := List.length_pos_iff.mpr hpat
  simp only [List.length_append] at hlen
  omega

theorem CutInto.not_infix (h : CutInto pat s tokens) (hpat : pat ≠ []) :
    ∀ token ∈ tokens, ¬ pat <:+: token := by
  induction h with
  | last hnot =>
      intro token htoken hinfix
      obtain rfl := List.mem_singleton.mp htoken
      obtain ⟨b, a, hfirst⟩ := exists_isFirst hinfix
      exact hnot b a hfirst
  | cut hfirst _ ih =>
      intro token htoken
      rcases List.mem_cons.mp htoken with rfl | htoken
      · exact hfirst.not_infix hpat
      · exact ih token htoken

/-- An element that is not in front of a place occurs there first. -/
theorem isFirst_singleton {c : α} (hc : c ∉ before) :
    IsFirst [c] before after (before ++ c :: after) := by
  refine ⟨rfl, fun b a heq => ?_⟩
  by_contra hlt
  refine hc ?_
  have hget := congrArg (·[b.length]?) heq
  simp only [List.getElem?_append_left (Nat.lt_of_not_le hlt)] at hget
  exact List.mem_of_getElem? (hget.trans (by simp))

/-- Tokens without the element that is put between them are the tokens of the result. -/
theorem cutInto_intercalate {c : α} (hne : tokens ≠ []) (hc : ∀ token ∈ tokens, c ∉ token) :
    CutInto [c] ([c].intercalate tokens) tokens := by
  induction tokens with
  | nil => exact absurd rfl hne
  | cons token tokens ih =>
      obtain ⟨htoken, hrest⟩ := List.forall_mem_cons.mp hc
      cases tokens with
      | nil =>
          rw [List.intercalate_singleton]
          refine .last fun b a hfirst => htoken ?_
          rw [hfirst.eq]
          simp
      | cons next tokens =>
          rw [List.intercalate_cons_cons, List.append_assoc]
          exact .cut (isFirst_singleton htoken) (ih (List.cons_ne_nil _ _) hrest)

end Occurrence
