import Mathlib.Data.List.Infix
import Mathlib.Data.List.TakeWhile

/-!
# A set of ranges that are to be wrapped in text

`RewriteRangePackerSet`: the macro ranges of a file, each with the text that goes in front
of it and behind it. The set is kept in the order of the starts. `insert` looks at the range
that precedes a new one only, so the ranges stay apart as long as no new range extends into
the one that follows it.
-/

namespace Lorelei.ClangExtras

/-- `clang::CharSourceRange`, with the positions of its locations in the file. -/
structure CharSourceRange where
  getBegin : Nat
  getEnd : Nat
  begin_le_end : getBegin ≤ getEnd
deriving DecidableEq, Repr

/-- The ranges have a position in common; text that is inserted there belongs to both. -/
def CharSourceRange.Meets (r r' : CharSourceRange) : Prop :=
  r.getBegin ≤ r'.getEnd ∧ r'.getBegin ≤ r.getEnd

/-- `RangePacker`. -/
structure RangePacker where
  range : CharSourceRange
  textBefore : String
  textAfter : String
deriving DecidableEq, Repr

/-- `RangePacker::operator<`. -/
def RangePacker.lt (p q : RangePacker) : Bool := p.range.getBegin < q.range.getBegin

/-- `RewriteRangePackerSet`: a `std::set`, in order. -/
structure RewriteRangePackerSet where
  ranges : List RangePacker
deriving DecidableEq, Repr

namespace RewriteRangePackerSet

/-! ## Inserting -/

/-- The elements in front of `upper_bound(packer)`. -/
def front (s : RewriteRangePackerSet) (packer : RangePacker) : List RangePacker :=
  s.ranges.takeWhile fun p => !packer.lt p

/-- The elements from `upper_bound(packer)` on. -/
def back (s : RewriteRangePackerSet) (packer : RangePacker) : List RangePacker :=
  s.ranges.dropWhile fun p => !packer.lt p

/-- `std::set::insert`, in front of the upper bound: an element that is equivalent to one
that is there is not inserted. -/
def emplace (s : RewriteRangePackerSet) (packer : RangePacker) : RewriteRangePackerSet :=
  if s.ranges.any fun p => !packer.lt p && !p.lt packer then s
  else ⟨s.front packer ++ packer :: s.back packer⟩

/-- `insert`. -/
def insert (s : RewriteRangePackerSet) (packer : RangePacker) : Bool × RewriteRangePackerSet :=
  match (s.front packer).getLast? with
  | none => (true, s.emplace packer)
  | some prev =>
      if prev.range.getEnd ≥ packer.range.getBegin then (false, s)
      else (true, s.emplace packer)

/-- The set after these packers have been inserted. -/
def insertAll (packers : List RangePacker) : RewriteRangePackerSet :=
  packers.foldl (fun s packer => (s.insert packer).2) ⟨[]⟩

theorem insertAll_concat (packers : List RangePacker) (packer : RangePacker) :
    insertAll (packers ++ [packer]) = ((insertAll packers).insert packer).2 := by
  rw [insertAll, List.foldl_append]
  rfl

/-! ## What an insertion does -/

/-- The ranges are in the order of their starts and apart from each other. -/
structure Apart (s : RewriteRangePackerSet) : Prop where
  sorted : s.ranges.Pairwise fun p q => p.range.getBegin < q.range.getBegin
  disjoint : s.ranges.Pairwise fun p q => ¬ p.range.Meets q.range

variable {s : RewriteRangePackerSet} {p q packer : RangePacker}

theorem front_append_back (s : RewriteRangePackerSet) (packer : RangePacker) :
    s.front packer ++ s.back packer = s.ranges := List.takeWhile_append_dropWhile

theorem mem_ranges_iff : p ∈ s.ranges ↔ p ∈ s.front packer ∨ p ∈ s.back packer := by
  rw [← front_append_back s packer, List.mem_append]

theorem getBegin_le_of_mem_front (h : p ∈ s.front packer) :
    p.range.getBegin ≤ packer.range.getBegin := by
  have hnot := List.mem_takeWhile_imp h
  simpa [RangePacker.lt] using hnot

theorem Apart.lt_getBegin_of_mem_back (hs : Apart s) (h : p ∈ s.back packer) :
    packer.range.getBegin < p.range.getBegin := by
  have hsorted : (s.back packer).Pairwise fun p q => p.range.getBegin < q.range.getBegin :=
    hs.sorted.sublist (List.dropWhile_sublist _)
  have hhead := List.head?_dropWhile_not (fun p => !packer.lt p) s.ranges
  rw [← back] at hhead
  cases hback : s.back packer with
  | nil =>
      rw [hback] at h
      exact absurd h List.not_mem_nil
  | cons q rest =>
      rw [hback] at hhead hsorted h
      have hq : packer.range.getBegin < q.range.getBegin := by
        simpa [RangePacker.lt] using hhead
      rcases List.mem_cons.mp h with rfl | hrest
      · exact hq
      · exact Nat.lt_trans hq ((List.pairwise_cons.mp hsorted).1 p hrest)

/-- Nothing that precedes the range reaches it. -/
def Free (s : RewriteRangePackerSet) (packer : RangePacker) : Prop :=
  ∀ p ∈ s.ranges, p.range.getBegin ≤ packer.range.getBegin →
    p.range.getEnd < packer.range.getBegin

/-- A range that nothing reaches from in front ends before the next range starts. -/
def Clear (s : RewriteRangePackerSet) (packer : RangePacker) : Prop :=
  Free s packer → ∀ p ∈ s.ranges, packer.range.getBegin < p.range.getBegin →
    packer.range.getEnd < p.range.getBegin

theorem emplace_of_free (h : Free s packer) :
    s.emplace packer = ⟨s.front packer ++ packer :: s.back packer⟩ := by
  refine if_neg fun hany => ?_
  obtain ⟨p, hp, hequiv⟩ := List.any_eq_true.mp hany
  simp only [RangePacker.lt, Bool.and_eq_true, Bool.not_eq_true', decide_eq_false_iff_not,
    Nat.not_lt] at hequiv
  have hlt := h p hp hequiv.1
  have hle := p.range.begin_le_end
  omega

theorem insert_of_free (h : Free s packer) :
    s.insert packer = (true, ⟨s.front packer ++ packer :: s.back packer⟩) := by
  rw [insert]
  split
  next => rw [emplace_of_free h]
  next prev hprev =>
    have hmem := List.mem_of_getLast? hprev
    have hlt := h prev (mem_ranges_iff.mpr (.inl hmem)) (getBegin_le_of_mem_front hmem)
    rw [if_neg (Nat.not_le.mpr hlt), emplace_of_free h]

/-- What reaches a range from in front is the range that precedes it. -/
theorem insert_of_not_free (hs : Apart s) (h : ¬ Free s packer) :
    s.insert packer = (false, s) := by
  unfold Free at h
  push Not at h
  obtain ⟨p, hp, hbegin, hend⟩ := h
  have hfront : p ∈ s.front packer := by
    refine (mem_ranges_iff.mp hp).resolve_right fun hback => ?_
    exact absurd hbegin (Nat.not_le.mpr (hs.lt_getBegin_of_mem_back hback))
  rw [insert]
  split
  next hnone =>
    rw [List.getLast?_eq_none_iff.mp hnone] at hfront
    exact absurd hfront List.not_mem_nil
  next prev hprev =>
    obtain ⟨init, hinit⟩ := List.getLast?_eq_some_iff.mp hprev
    have hprevBegin : prev.range.getBegin ≤ packer.range.getBegin :=
      getBegin_le_of_mem_front (List.mem_of_getLast? hprev)
    have hsub : (init ++ [prev]).Sublist s.ranges := hinit ▸ List.takeWhile_sublist _
    have heq : p = prev := by
      rw [hinit] at hfront
      refine (List.mem_append.mp hfront).elim (fun hp => ?_) List.mem_singleton.mp
      have hlt := (List.pairwise_append.mp (hs.sorted.sublist hsub)).2.2 p hp prev
        (List.mem_singleton_self _)
      have hmeets := (List.pairwise_append.mp (hs.disjoint.sublist hsub)).2.2 p hp prev
        (List.mem_singleton_self _)
      exact absurd ⟨Nat.le_trans (Nat.le_of_lt hlt) prev.range.begin_le_end,
        Nat.le_trans hprevBegin hend⟩ hmeets
    rw [heq] at hend
    rw [if_pos hend]

theorem mem_insert (h : p ∈ s.ranges) : p ∈ (s.insert packer).2.ranges := by
  have hemplace : p ∈ (s.emplace packer).ranges := by
    rw [emplace]
    split
    next => exact h
    next =>
      rcases mem_ranges_iff.mp h with hfront | hback
      · exact List.mem_append_left _ hfront
      · exact List.mem_append_right _ (List.mem_cons_of_mem _ hback)
  rw [insert]
  split
  next => exact hemplace
  next =>
    split
    next => exact h
    next => exact hemplace

theorem meets_iff_of_clear (h : Clear s packer) :
    (∃ p ∈ s.ranges, p.range.Meets packer.range) ↔ ¬ Free s packer := by
  constructor
  · rintro ⟨p, hp, hbegin, hend⟩ hfree
    rcases Nat.lt_or_ge packer.range.getBegin p.range.getBegin with hlt | hge
    · exact absurd (h hfree p hp hlt) (Nat.not_lt.mpr hbegin)
    · exact absurd (hfree p hp hge) (Nat.not_lt.mpr hend)
  · intro hfree
    unfold Free at hfree
    push Not at hfree
    obtain ⟨p, hp, hbegin, hend⟩ := hfree
    exact ⟨p, hp, Nat.le_trans hbegin packer.range.begin_le_end, hend⟩

/-- Ranges that are apart stay apart when a clear one is inserted. -/
theorem Apart.insert (hs : Apart s) (h : Clear s packer) : Apart (s.insert packer).2 := by
  by_cases hfree : Free s packer
  · rw [insert_of_free hfree]
    have hfront (p : RangePacker) (hp : p ∈ s.front packer) :
        p.range.getEnd < packer.range.getBegin :=
      hfree p (mem_ranges_iff.mpr (.inl hp)) (getBegin_le_of_mem_front hp)
    have hback (p : RangePacker) (hp : p ∈ s.back packer) :
        packer.range.getEnd < p.range.getBegin :=
      h hfree p (mem_ranges_iff.mpr (.inr hp)) (hs.lt_getBegin_of_mem_back hp)
    have hle := packer.range.begin_le_end
    obtain ⟨hsorted, hdisjoint⟩ := hs
    rw [← front_append_back s packer, List.pairwise_append] at hsorted hdisjoint
    constructor
    · refine List.pairwise_append.mpr ⟨hsorted.1, List.pairwise_cons.mpr ⟨fun p hp => ?_,
        hsorted.2.1⟩, fun p hp q hq => ?_⟩
      · exact Nat.lt_of_le_of_lt hle (hback p hp)
      · rcases List.mem_cons.mp hq with rfl | hq
        · exact Nat.lt_of_le_of_lt p.range.begin_le_end (hfront p hp)
        · exact hsorted.2.2 p hp q hq
    · refine List.pairwise_append.mpr ⟨hdisjoint.1, List.pairwise_cons.mpr ⟨fun p hp hmeets => ?_,
        hdisjoint.2.1⟩, fun p hp q hq => ?_⟩
      · exact absurd (hback p hp) (Nat.not_lt.mpr hmeets.2)
      · rcases List.mem_cons.mp hq with rfl | hq
        · exact fun hmeets => absurd (hfront p hp) (Nat.not_lt.mpr hmeets.2)
        · exact hdisjoint.2.2 p hp q hq
  · rw [insert_of_not_free hs hfree]
    exact hs

/-! ## Sequences of insertions -/

variable {packers inserted : List RangePacker}

theorem mem_insertAll_append (h : p ∈ (insertAll inserted).ranges) (more : List RangePacker) :
    p ∈ (insertAll (inserted ++ more)).ranges := by
  induction more generalizing inserted with
  | nil => rwa [List.append_nil]
  | cons packer more ih =>
      rw [← List.singleton_append, ← List.append_assoc]
      refine ih ?_
      rw [insertAll_concat]
      exact mem_insert h

theorem mem_of_mem_insertAll (h : p ∈ (insertAll packers).ranges) : p ∈ packers := by
  induction packers using List.reverseRecOn with
  | nil => exact h
  | append_singleton packers packer ih =>
      have hemplace : p ∈ ((insertAll packers).emplace packer).ranges →
          p ∈ packers ++ [packer] := by
        rw [emplace]
        split
        next => exact fun hp => List.mem_append_left _ (ih hp)
        next =>
          intro hp
          rcases List.mem_append.mp hp with hfront | hback
          · exact List.mem_append_left _ (ih (mem_ranges_iff.mpr (.inl hfront)))
          · rcases List.mem_cons.mp hback with rfl | hback
            · exact List.mem_append_right _ List.mem_cons_self
            · exact List.mem_append_left _ (ih (mem_ranges_iff.mpr (.inr hback)))
      rw [insertAll_concat, insert] at h
      split at h
      next => exact hemplace h
      next =>
        split at h
        next => exact List.mem_append_left _ (ih h)
        next => exact hemplace h

theorem apart_insertAll
    (h : ∀ inserted packer, inserted ++ [packer] <+: packers → Clear (insertAll inserted) packer)
    (hfront : inserted <+: packers) : Apart (insertAll inserted) := by
  induction inserted using List.reverseRecOn with
  | nil => exact ⟨.nil, .nil⟩
  | append_singleton inserted packer ih =>
      rw [insertAll_concat]
      exact (ih ((List.prefix_append inserted [packer]).trans hfront)).insert (h _ _ hfront)

/-- After every insertion the ranges are sorted and apart; one is refused, and changes
nothing, exactly if it meets a range that is held, and otherwise it is held from then on. -/
structure KeepsApart (packers : List RangePacker) : Prop where
  apart : ∀ inserted, inserted <+: packers → Apart (insertAll inserted)
  refuses : ∀ inserted packer, inserted ++ [packer] <+: packers →
    (((insertAll inserted).insert packer).1 = false ↔
      ∃ p ∈ (insertAll inserted).ranges, p.range.Meets packer.range)
  unchanged : ∀ inserted packer, inserted ++ [packer] <+: packers →
    ((insertAll inserted).insert packer).1 = false →
      insertAll (inserted ++ [packer]) = insertAll inserted
  stays : ∀ inserted packer more, inserted ++ packer :: more <+: packers →
    ((insertAll inserted).insert packer).1 = true →
      packer ∈ (insertAll (inserted ++ packer :: more)).ranges

/-- A sequence of insertions is as it should be exactly if no range that nothing reaches from
in front extends to the next range that is held when it is inserted. -/
theorem keepsApart_iff :
    KeepsApart packers ↔
      ∀ inserted packer, inserted ++ [packer] <+: packers → Clear (insertAll inserted) packer := by
  constructor
  · intro h inserted packer hfront hfree p hp hlt
    by_contra hle
    have hmeets : p.range.Meets packer.range :=
      ⟨Nat.not_lt.mp hle, Nat.le_trans (Nat.le_of_lt hlt) p.range.begin_le_end⟩
    have hrefused := (h.refuses inserted packer hfront).mpr ⟨p, hp, hmeets⟩
    rw [insert_of_free hfree] at hrefused
    cases hrefused
  · intro h
    have hapart {inserted packer} (hfront : inserted ++ [packer] <+: packers) :
        Apart (insertAll inserted) :=
      apart_insertAll h ((List.prefix_append inserted [packer]).trans hfront)
    have hfree {inserted packer} (hfront : inserted ++ [packer] <+: packers) :
        ((insertAll inserted).insert packer).1 = false ↔ ¬ Free (insertAll inserted) packer := by
      by_cases hfree : Free (insertAll inserted) packer
      · rw [insert_of_free hfree]
        simp [hfree]
      · rw [insert_of_not_free (hapart hfront) hfree]
        simp [hfree]
    refine ⟨fun inserted => apart_insertAll h, fun inserted packer hfront => ?_,
      fun inserted packer hfront hrefused => ?_, fun inserted packer more hfront haccepted => ?_⟩
    · rw [hfree hfront, meets_iff_of_clear (h inserted packer hfront)]
    · rw [insertAll_concat, insert_of_not_free (hapart hfront) ((hfree hfront).mp hrefused)]
    · rw [← List.singleton_append, ← List.append_assoc] at hfront ⊢
      have hfront := (List.prefix_append (inserted ++ [packer]) more).trans hfront
      refine mem_insertAll_append ?_ more
      have hisFree : Free (insertAll inserted) packer := by
        by_contra hnot
        rw [(hfree hfront).mpr hnot] at haccepted
        cases haccepted
      rw [insertAll_concat, insert_of_free hisFree]
      exact List.mem_append_right _ List.mem_cons_self

/-- A range, and then one that contains it. -/
def containedFirst : List RangePacker :=
  [⟨⟨5, 6, by decide⟩, "", ""⟩, ⟨⟨2, 9, by decide⟩, "", ""⟩]

/-- The range that contains the other one is accepted. -/
theorem not_keepsApart : ¬ KeepsApart containedFirst := by
  intro h
  have hheld : insertAll containedFirst = ⟨containedFirst.reverse⟩ := rfl
  have hdisjoint := (h.apart containedFirst (List.prefix_refl _)).disjoint
  rw [hheld] at hdisjoint
  exact (List.pairwise_cons.mp hdisjoint).1 _ (List.mem_singleton_self _) ⟨by decide, by decide⟩

end RewriteRangePackerSet

end Lorelei.ClangExtras
