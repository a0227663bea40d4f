import Lorelei.ClangExtras.RewriteInsertion

/-!
# Texts that are inserted into a file

`clang::Rewriter`, as far as the tools use it: texts are inserted at places of the original
file, in front of what has been inserted at the same place or behind it. A set of ranges is
wrapped by two insertions for each. If the ranges are apart, the result is the original file
with each range between its two texts (`write_wrap`).
-/

namespace Lorelei.ClangExtras

/-- The buffer of a file, with what has been inserted in front of each of its places. -/
structure Rewriter where
  text : List Char
  inserted : Nat → List Char

namespace Rewriter

/-- `InsertText`. -/
def insertText (r : Rewriter) (loc : Nat) (str : List Char) (insertAfter : Bool) : Rewriter :=
  { r with
    inserted := Function.update r.inserted loc
      (if insertAfter then r.inserted loc ++ str else str ++ r.inserted loc) }

/-- The buffer from a place on. -/
def writeFrom (inserted : Nat → List Char) : Nat → List Char → List Char
  | pos, [] => inserted pos
  | pos, c :: text => inserted pos ++ c :: writeFrom inserted (pos + 1) text

/-- The edited file. -/
def write (r : Rewriter) : List Char := writeFrom r.inserted 0 r.text

/-- The two insertions for a range. -/
def wrapOne (r : Rewriter) (ins : RangePacker) : Rewriter :=
  (r.insertText ins.range.getBegin ins.textBefore.toList false).insertText ins.range.getEnd
    ins.textAfter.toList true

/-- The loop over the ranges. -/
def wrap (r : Rewriter) (insertions : RewriteRangePackerSet) : Rewriter :=
  insertions.ranges.foldl wrapOne r

end Rewriter

/-- A file, of which nothing is edited yet. -/
def Rewriter.ofText (text : List Char) : Rewriter := ⟨text, fun _ => []⟩

/-! ## What it is for -/

/-- The texts in front of the ranges and in them, from a place on, and what is left. -/
def rangePieces : Nat → List RangePacker → List Char → List (List Char × List Char) × List Char
  | _, [], text => ([], text)
  | pos, ins :: ranges, text =>
      let gap := text.take (ins.range.getBegin - pos)
      let text := text.drop (ins.range.getBegin - pos)
      let content := text.take (ins.range.getEnd - ins.range.getBegin)
      let text := text.drop (ins.range.getEnd - ins.range.getBegin)
      let (more, tail) := rangePieces ins.range.getEnd ranges text
      ((gap, content) :: more, tail)

/-- Each range between its texts. -/
def wrapped : Nat → List RangePacker → List Char → List Char
  | _, [], text => text
  | pos, ins :: ranges, text =>
      let gap := text.take (ins.range.getBegin - pos)
      let text := text.drop (ins.range.getBegin - pos)
      let content := text.take (ins.range.getEnd - ins.range.getBegin)
      let text := text.drop (ins.range.getEnd - ins.range.getBegin)
      gap ++ (ins.textBefore.toList ++ (content ++ (ins.textAfter.toList ++
        wrapped ins.range.getEnd ranges text)))

/-- The ranges are apart from each other, and start behind this place. -/
def ApartFrom (pos : Nat) (ranges : List RangePacker) : Prop :=
  (∀ ins ∈ ranges, pos ≤ ins.range.getBegin) ∧
    ranges.Pairwise fun p q => p.range.getEnd < q.range.getBegin

namespace Rewriter

variable {inserted inserted' : Nat → List Char} {pos n : Nat} {text str : List Char}
  {ranges : List RangePacker} {ins : RangePacker}

/-! ## The buffer -/

theorem writeFrom_congr (h : ∀ i, pos ≤ i → inserted i = inserted' i) :
    writeFrom inserted pos text = writeFrom inserted' pos text := by
  induction text generalizing pos with
  | nil => exact h pos (Nat.le_refl pos)
  | cons c text ih =>
      rw [writeFrom, writeFrom, h pos (Nat.le_refl pos), ih fun i hi => h i (by omega)]

theorem writeFrom_nil (pos : Nat) (text : List Char) : writeFrom (fun _ => []) pos text = text := by
  induction text generalizing pos with
  | nil => rfl
  | cons c text ih => rw [writeFrom, ih, List.nil_append]

/-- An insertion at the place itself comes first. -/
theorem writeFrom_here (str : List Char) (inserted : Nat → List Char) (pos : Nat)
    (text : List Char) :
    writeFrom (fun i => (if i = pos then str else []) ++ inserted i) pos text =
      str ++ writeFrom inserted pos text := by
  cases text with
  | nil => simp [writeFrom]
  | cons c text =>
      have hrest : writeFrom (fun i => (if i = pos then str else []) ++ inserted i) (pos + 1) text =
          writeFrom inserted (pos + 1) text :=
        writeFrom_congr fun i hi => by rw [if_neg (by omega), List.nil_append]
      rw [writeFrom, hrest, writeFrom, if_pos rfl, List.append_assoc]

/-- Where nothing is inserted the text is copied. -/
theorem writeFrom_take (hn : n ≤ text.length) (h : ∀ i, pos ≤ i → i < pos + n → inserted i = []) :
    writeFrom inserted pos text = text.take n ++ writeFrom inserted (pos + n) (text.drop n) := by
  induction n generalizing pos text with
  | zero => simp
  | succ n ih =>
      cases text with
      | nil => simp at hn
      | cons c text =>
          have hrest := @ih (pos + 1) text (by simpa using hn)
            fun i hi hlt => h i (by omega) (by omega)
          rw [writeFrom, h pos (Nat.le_refl pos) (by omega), List.nil_append, hrest,
            List.take_succ_cons, List.drop_succ_cons, List.cons_append, Nat.add_assoc,
            Nat.add_comm 1 n]

/-- An insertion behind a text that is copied. -/
theorem writeFrom_ahead (hn : n ≤ text.length)
    (h : ∀ i, pos ≤ i → i < pos + n → inserted i = []) :
    writeFrom (fun i => (if i = pos + n then str else []) ++ inserted i) pos text =
      text.take n ++ (str ++ writeFrom inserted (pos + n) (text.drop n)) := by
  rw [writeFrom_take hn, writeFrom_here]
  intro i hi hlt
  rw [h i hi hlt, if_neg (by omega), List.nil_append]

/-! ## Ranges -/

/-- What the ranges have inserted at a place. -/
def insertedOf : List RangePacker → Nat → List Char
  | [], _ => []
  | ins :: ranges, i =>
      (if i = ins.range.getBegin then ins.textBefore.toList else []) ++
        ((if i = ins.range.getEnd then ins.textAfter.toList else []) ++ insertedOf ranges i)

theorem insertedOf_of_lt (h : ∀ ins ∈ ranges, pos < ins.range.getBegin) :
    insertedOf ranges pos = [] := by
  induction ranges with
  | nil => rfl
  | cons ins ranges ih =>
      have hins := h ins List.mem_cons_self
      have hle := ins.range.begin_le_end
      rw [insertedOf, if_neg (by omega), if_neg (by omega),
        ih fun q hq => h q (List.mem_cons_of_mem ins hq)]
      rfl

theorem writeFrom_insertedOf (h : ApartFrom pos ranges)
    (hend : ∀ ins ∈ ranges, ins.range.getEnd ≤ pos + text.length) :
    writeFrom (insertedOf ranges) pos text = wrapped pos ranges text := by
  induction ranges generalizing pos text with
  | nil => exact writeFrom_nil pos text
  | cons ins ranges ih =>
      obtain ⟨hbegin, hpairs⟩ := h
      obtain ⟨hlt, hpairs⟩ := List.pairwise_cons.mp hpairs
      have hle := ins.range.begin_le_end
      have hpos := hbegin ins List.mem_cons_self
      have hlen := hend ins List.mem_cons_self
      have hrest (i : Nat) (hi : i ≤ ins.range.getEnd) : insertedOf ranges i = [] :=
        insertedOf_of_lt fun q hq => Nat.lt_of_le_of_lt hi (hlt q hq)
      obtain ⟨gap, hgap⟩ := Nat.exists_eq_add_of_le hpos
      obtain ⟨content, hcontent⟩ := Nat.exists_eq_add_of_le hle
      have hafter := @ih ins.range.getEnd ((text.drop gap).drop content)
        ⟨fun q hq => Nat.le_of_lt (hlt q hq), hpairs⟩ (by
          intro q hq
          have := hend q (List.mem_cons_of_mem ins hq)
          simp only [List.length_drop]
          omega)
      have hgapLen : gap ≤ text.length := by omega
      have hcontentLen : content ≤ (text.drop gap).length := by
        rw [List.length_drop]
        omega
      have houter : writeFrom (insertedOf (ins :: ranges)) pos text =
          text.take gap ++ (ins.textBefore.toList ++ writeFrom
            (fun i => (if i = ins.range.getEnd then ins.textAfter.toList else []) ++
              insertedOf ranges i) ins.range.getBegin (text.drop gap)) := by
        have hins : insertedOf (ins :: ranges) = fun i =>
            (if i = pos + gap then ins.textBefore.toList else []) ++
              ((if i = ins.range.getEnd then ins.textAfter.toList else []) ++
                insertedOf ranges i) := by
          funext i
          rw [insertedOf, hgap]
        rw [hins, hgap]
        refine writeFrom_ahead hgapLen fun i hi hlt => ?_
        rw [hrest i (by omega), if_neg (by omega), List.nil_append]
      have hinner : writeFrom (fun i =>
            (if i = ins.range.getEnd then ins.textAfter.toList else []) ++ insertedOf ranges i)
          ins.range.getBegin (text.drop gap) =
          (text.drop gap).take content ++ (ins.textAfter.toList ++
            writeFrom (insertedOf ranges) ins.range.getEnd ((text.drop gap).drop content)) := by
        rw [hcontent]
        exact writeFrom_ahead hcontentLen fun i hi hlt => hrest i (by omega)
      have hgap' : ins.range.getBegin - pos = gap := by omega
      have hcontent' : ins.range.getEnd - ins.range.getBegin = content := by omega
      rw [houter, hinner, hafter, wrapped, hgap', hcontent']

/-- The insertions for ranges that are apart. -/
theorem inserted_foldl (h : ApartFrom pos ranges) {r : Rewriter}
    (hempty : ∀ i, pos ≤ i → r.inserted i = []) :
    (ranges.foldl wrapOne r).inserted = fun i => r.inserted i ++ insertedOf ranges i := by
  induction ranges generalizing pos r with
  | nil =>
      funext i
      exact (List.append_nil _).symm
  | cons ins ranges ih =>
      obtain ⟨hbegin, hpairs⟩ := h
      obtain ⟨hlt, hpairs⟩ := List.pairwise_cons.mp hpairs
      have hle := ins.range.begin_le_end
      have hpos := hbegin ins List.mem_cons_self
      have hone (i : Nat) : (r.wrapOne ins).inserted i = r.inserted i ++
          ((if i = ins.range.getBegin then ins.textBefore.toList else []) ++
            (if i = ins.range.getEnd then ins.textAfter.toList else [])) := by
        simp only [wrapOne, insertText, Function.update_apply, if_true, Bool.false_eq_true,
          if_false]
        by_cases hb : i = ins.range.getBegin
        · subst hb
          rw [hempty _ hpos]
          by_cases he : ins.range.getBegin = ins.range.getEnd <;> simp [he]
        · by_cases he : i = ins.range.getEnd
          · subst he
            simp [hb]
          · simp [hb, he]
      have hafter : ApartFrom (ins.range.getEnd + 1) ranges := ⟨hlt, hpairs⟩
      rw [List.foldl_cons, ih hafter]
      · funext i
        rw [hone, insertedOf, List.append_assoc, List.append_assoc]
      · intro i hi
        rw [hone, hempty i (by omega), if_neg (by omega), if_neg (by omega)]
        rfl

theorem text_foldl (ranges : List RangePacker) (r : Rewriter) :
    (ranges.foldl wrapOne r).text = r.text := by
  induction ranges generalizing r with
  | nil => rfl
  | cons ins ranges ih => exact ih _

/-- Ranges of the file that are apart are each put between their texts, and nothing else
changes. -/
theorem write_wrap {insertions : RewriteRangePackerSet}
    (h : insertions.ranges.Pairwise fun p q => p.range.getEnd < q.range.getBegin)
    (hend : ∀ ins ∈ insertions.ranges, ins.range.getEnd ≤ text.length) :
    ((ofText text).wrap insertions).write = wrapped 0 insertions.ranges text := by
  have hapart : ApartFrom 0 insertions.ranges := ⟨fun _ _ => Nat.zero_le _, h⟩
  rw [write, wrap, text_foldl, inserted_foldl hapart fun _ _ => rfl]
  simp only [ofText, List.nil_append]
  exact writeFrom_insertedOf hapart (by simpa using hend)

theorem writeFrom_end (inserted : Nat → List Char) (pos : Nat) (text str : List Char) :
    writeFrom (Function.update inserted (pos + text.length)
      (inserted (pos + text.length) ++ str)) pos text = writeFrom inserted pos text ++ str := by
  induction text generalizing pos with
  | nil => simp [writeFrom]
  | cons c text ih =>
      have hne : pos ≠ pos + (c :: text).length := by
        simp
      have hlen : pos + (c :: text).length = pos + 1 + text.length := by
        simp only [List.length_cons]
        omega
      rw [writeFrom, writeFrom, Function.update_of_ne hne, hlen, ih, List.append_assoc,
        List.cons_append]

/-- What is inserted behind everything else at the end of the file comes last. -/
theorem write_insertText_end {r : Rewriter} (str : List Char) :
    (r.insertText r.text.length str true).write = r.write ++ str := by
  have hend := writeFrom_end r.inserted 0 r.text str
  rw [Nat.zero_add] at hend
  exact hend

theorem text_wrap (r : Rewriter) (insertions : RewriteRangePackerSet) :
    (r.wrap insertions).text = r.text := text_foldl _ _

end Rewriter

/-- Ranges that do not meet end before the next one starts. -/
theorem RewriteRangePackerSet.Apart.end_lt {s : RewriteRangePackerSet} (h : s.Apart) :
    s.ranges.Pairwise fun p q => p.range.getEnd < q.range.getBegin := by
  refine (h.sorted.and h.disjoint).imp ?_
  rintro p q ⟨hlt, hmeets⟩
  have hp := p.range.begin_le_end
  have hq := q.range.begin_le_end
  simp only [CharSourceRange.Meets, not_and, Nat.not_le] at hmeets
  by_contra hle
  have := hmeets (by omega)
  omega

end Lorelei.ClangExtras
