import Lorelei.Support.StringExtras
import Mathlib.Tactic.Common

/-!
# What a template expands to

A template is a sequence of characters, of dollars written `$$`, and of references. The
expansion of a reference is what the lookup gives for its name, as it is; a name with a
reference in it is expanded first. `varexp` writes the values between the literals and
takes the `$$` of the whole text apart only then. Both come to the same lookups and the
same text unless two dollars meet that are not written `$$` in the template.
-/

namespace Lorelei.Support

/-! ## Templates -/

/-- A name with the references in it closed. -/
inductive Balanced : Str → Prop where
  | nil : Balanced []
  | char {c : Char} {s : Str} : c ≠ '}' → ¬ (['$', '{'] <+: c :: s) → Balanced s → Balanced (c :: s)
  | ref {s t : Str} : Balanced s → Balanced t → Balanced ('$' :: '{' :: (s ++ '}' :: t))

/-- Behind the name, `n` references are still open and the text closes them. -/
def Closes : Nat → Str → Prop
  | 0, s => Balanced s
  | n + 1, s => ∃ a b, s = a ++ '}' :: b ∧ Balanced a ∧ Closes n b

theorem Closes.char {n : Nat} {c : Char} {s : Str} (hc : c ≠ '}') (hbrace : ¬ ['$', '{'] <+: c :: s)
    (h : Closes n s) : Closes n (c :: s) := by
  cases n with
  | zero => exact Balanced.char hc hbrace h
  | succ n =>
      obtain ⟨a, b, rfl, ha, hb⟩ := h
      refine ⟨c :: a, b, rfl, Balanced.char hc (fun hprefix => hbrace ?_) ha, hb⟩
      exact hprefix.trans (List.prefix_append (c :: a) _)

theorem Closes.ref {n : Nat} {s : Str} (h : Closes (n + 1) s) : Closes n ('$' :: '{' :: s) := by
  obtain ⟨a, b, rfl, ha, hb⟩ := h
  cases n with
  | zero => exact Balanced.ref ha hb
  | succ n =>
      obtain ⟨a', b', rfl, ha', hb'⟩ := hb
      refine ⟨'$' :: '{' :: (a ++ '}' :: a'), b', ?_, Balanced.ref ha ha', hb'⟩
      simp

theorem closes_of_closeBrace {n : Nat} {s name rest : Str} {nested : Bool}
    (h : closeBrace (n + 1) s = some (name, rest, nested)) : Closes n name := by
  induction hm : n + 1, s using closeBrace.induct generalizing n name rest nested with
  | case1 => cases h
  | case2 m s ih =>
      rw [closeBrace] at h
      obtain ⟨r, hr, heq⟩ := Option.map_eq_some_iff.mp h
      subst hm
      cases heq
      exact (ih hr rfl).ref
  | case3 m s hle =>
      subst hm
      obtain rfl : n = 0 := by omega
      rw [closeBrace, if_pos hle] at h
      cases h
      exact .nil
  | case4 m s hlt ih =>
      subst hm
      obtain ⟨n, rfl⟩ : ∃ k, n = k + 1 := ⟨n - 1, by omega⟩
      rw [closeBrace, if_neg hlt] at h
      obtain ⟨⟨name', rest', nested'⟩, hr, heq⟩ := Option.map_eq_some_iff.mp h
      cases heq
      exact ⟨[], name', rfl, .nil, ih hr rfl⟩
  | case5 m c s hbrace hclose ih =>
      subst hm
      rw [closeBrace] at h
      · obtain ⟨⟨name', rest', nested'⟩, hr, heq⟩ := Option.map_eq_some_iff.mp h
        cases heq
        refine (ih hr rfl).char (fun hc => hclose hc) ?_
        rintro ⟨t, ht⟩
        injection ht with hc ht
        have hname : '{' :: t = name' := ht
        refine hbrace (t ++ '}' :: rest) hc.symm ?_
        rw [closeBrace_append hr, ← hname]
        rfl
      · exact hbrace
      · exact hclose

/-- The scan reads over a name in which all references are closed. -/
theorem Balanced.closeBrace_append {a : Str} (h : Balanced a) (n : Nat) (t : Str)
    (ht : ∀ t', t ≠ '{' :: t') :
    closeBrace (n + 1) (a ++ t) = (closeBrace (n + 1) t).map fun r =>
      (a ++ r.1, r.2.1, decide (['$', '{'] <:+: a) || r.2.2) := by
  induction h generalizing n t with
  | nil => simp
  | @char c s hclose hbrace _ ih =>
      have hinfix : ['$', '{'] <:+: c :: s ↔ ['$', '{'] <:+: s := by
        rw [List.infix_cons_iff]
        exact or_iff_right hbrace
      rw [List.cons_append, closeBrace, ih _ _ ht, Option.map_map]
      · simp [Function.comp_def, hinfix]
      · intro s' hc hs
        cases s with
        | nil => exact ht _ hs
        | cons c' s =>
            injection hs with hc' _
            exact hbrace ⟨s, by rw [hc, hc']; rfl⟩
      · exact hclose
  | @ref s t' _ _ ihs iht =>
      have hinfix : ['$', '{'] <:+: '$' :: '{' :: (s ++ '}' :: t') := ⟨[], s ++ '}' :: t', by simp⟩
      have hassoc : '$' :: '{' :: (s ++ '}' :: t') ++ t =
          '$' :: '{' :: (s ++ '}' :: (t' ++ t)) := by
        simp
      rw [hassoc, closeBrace, ihs (n + 1) _ (by simp), closeBrace, if_neg (by omega),
        Nat.add_sub_cancel, iht _ _ ht, Option.map_map, Option.map_map, Option.map_map]
      simp [Function.comp_def, hinfix]

/-- A reference ends where the braces of the references in its name are matched. -/
theorem closeBrace_eq_some_iff {s name rest : Str} {nested : Bool} :
    closeBrace 1 s = some (name, rest, nested) ↔
      s = name ++ '}' :: rest ∧ Balanced name ∧ nested = decide (['$', '{'] <:+: name) := by
  have hscan : Balanced name → closeBrace 1 (name ++ '}' :: rest) =
      some (name, rest, decide (['$', '{'] <:+: name)) := fun hname => by
    rw [hname.closeBrace_append 0 _ (by simp), closeBrace, if_pos le_rfl]
    simp
  constructor
  · intro h
    have hname : Balanced name := closes_of_closeBrace h
    obtain rfl : s = name ++ '}' :: rest := closeBrace_append h
    rw [hscan hname] at h
    cases h
    exact ⟨rfl, hname, rfl⟩
  · rintro ⟨rfl, hname, rfl⟩
    exact hscan hname

inductive Piece where
  | char (c : Char)
  | dollar
  | ref (name : Str) (nested : Bool)

/-- The pieces of a template, from left to right, unless a reference is not closed. -/
def pieces : Str → Option (List Piece)
  | [] => some []
  | '$' :: '{' :: s =>
      match h : closeBrace 1 s with
      | none => none
      | some (name, rest, nested) =>
          have : rest.length < s.length + 2 := by
            have hlt := closeBrace_length h
            simp only at hlt
            omega
          (pieces rest).map (.ref name nested :: ·)
  | '$' :: '$' :: s => (pieces s).map (.dollar :: ·)
  | c :: s => (pieces s).map (.char c :: ·)
termination_by s => s.length

theorem pieces_ref (s : Str) :
    pieces ('$' :: '{' :: s) = (closeBrace 1 s).bind fun r =>
      (pieces r.2.1).map (Piece.ref r.1 r.2.2 :: ·) := by
  rw [pieces]
  split
  next h => rw [h, Option.bind_none]
  next h => simp only [h, Option.bind_some]

/-- A character of the expansion; a dollar knows whether it was written `$$`. -/
inductive Mark where
  | dollar
  | char (c : Char)
deriving DecidableEq, Repr

namespace Mark

def text : Mark → Char
  | .dollar => '$'
  | .char c => c

/-- What stands for the character in front of `varexp_post`. -/
def raw : Mark → Str
  | .dollar => ['$', '$']
  | .char c => [c]

end Mark

/-- What expanding a template comes to: the names that are looked up, in order, and the text. -/
abbrev Expansion := List Str × Str

section Pieces

variable (find : Str → Str) (expand : Str → Expansion)

/-- The lookups for a piece, with the expansions of the names in which a reference is nested. -/
def Piece.lookups : Piece → List Str
  | .ref name true => (expand name).1 ++ [(expand name).2]
  | .ref name false => [name]
  | _ => []

def Piece.marks : Piece → List Mark
  | .ref name true => (find (expand name).2).map .char
  | .ref name false => (find name).map .char
  | .dollar => [.dollar]
  | .char c => [.char c]

def lookups (ps : List Piece) : List Str := ps.flatMap (Piece.lookups expand)

def marks (ps : List Piece) : List Mark := ps.flatMap (Piece.marks find expand)

end Pieces

/-- A nested name is shorter than the template. -/
theorem length_lt_of_mem_pieces {s name : Str} {nested : Bool} {ps : List Piece}
    (h : pieces s = some ps) (hmem : .ref name nested ∈ ps) : name.length < s.length := by
  induction s using pieces.induct generalizing ps with
  | case1 =>
      rw [pieces] at h
      obtain rfl := Option.some.inj h
      exact absurd hmem List.not_mem_nil
  | case2 s hnone =>
      rw [pieces_ref, hnone] at h
      cases h
  | case3 s inner rest nested' hsome hrest ih =>
      rw [pieces_ref, hsome, Option.bind_some] at h
      obtain ⟨ps', hps', rfl⟩ := Option.map_eq_some_iff.mp h
      have hlt := closeBrace_length hsome
      simp only at hlt
      rcases List.mem_cons.mp hmem with heq | hmem
      · cases heq
        simp only [List.length_cons]
        omega
      · have hname := ih hps' hmem
        simp only [List.length_cons]
        omega
  | case4 s ih =>
      rw [pieces] at h
      obtain ⟨ps', hps', rfl⟩ := Option.map_eq_some_iff.mp h
      rcases List.mem_cons.mp hmem with heq | hmem
      · cases heq
      · have hname := ih hps' hmem
        simp only [List.length_cons]
        omega
  | case5 c s hc hc' ih =>
      rw [pieces] at h
      · obtain ⟨ps', hps', rfl⟩ := Option.map_eq_some_iff.mp h
        rcases List.mem_cons.mp hmem with heq | hmem
        · cases heq
        · have hname := ih hps' hmem
          simp only [List.length_cons]
          omega
      all_goals assumption

theorem lookups_congr {expand expand' : Str → Expansion} {ps : List Piece}
    (h : ∀ name, .ref name true ∈ ps → expand name = expand' name) :
    lookups expand ps = lookups expand' ps := by
  refine List.flatMap_congr fun p hp => ?_
  rcases p with c | _ | ⟨name, _ | _⟩
  · rfl
  · rfl
  · rfl
  · simp only [Piece.lookups, h name hp]

theorem marks_congr {find : Str → Str} {expand expand' : Str → Expansion} {ps : List Piece}
    (h : ∀ name, .ref name true ∈ ps → expand name = expand' name) :
    marks find expand ps = marks find expand' ps := by
  refine List.flatMap_congr fun p hp => ?_
  rcases p with c | _ | ⟨name, _ | _⟩
  · rfl
  · rfl
  · rfl
  · simp only [Piece.marks, h name hp]

/-- The expansion of a template: nothing is looked up and the text is empty if a reference
is not closed. -/
def expand (find : Str → Str) (s : Str) : Expansion :=
  -- names are shorter than the template
  let expandName : Str → Expansion := fun name =>
    if name.length < s.length then expand find name else ([], [])
  match pieces s with
  | none => ([], [])
  | some ps => (lookups expandName ps, (marks find expandName ps).map Mark.text)
termination_by s.length

theorem expand_eq (find : Str → Str) (s : Str) :
    expand find s = match pieces s with
      | none => ([], [])
      | some ps => (lookups (expand find) ps, (marks find (expand find) ps).map Mark.text) := by
  rw [expand]
  split
  · rfl
  next ps hps =>
    have hnested : ∀ name, Piece.ref name true ∈ ps →
        (if name.length < s.length then expand find name else ([], [])) = expand find name :=
      fun name hmem => if_pos (length_lt_of_mem_pieces hps hmem)
    rw [lookups_congr hnested, marks_congr hnested]

/-! ## The expansion by `varexp` -/

/-- The names that `varexp` looks up, in order. -/
def varexpLookups (find : Str → Str) (s : Str) : List Str :=
  match h : varexpSplit false [] s with
  | none => []
  | some parts => parts.attach.flatMap fun part =>
      match hpart : part.1 with
      | .literal _ | .literalWithDollar _ => []
      | .variable data => [data]
      | .nestedVariable data =>
          have : data.length < s.length := length_lt_of_nested h (hpart ▸ part.2)
          varexpLookups find data ++ [varexp find data]
termination_by s.length

def varexpRun (find : Str → Str) (s : Str) : Expansion := (varexpLookups find s, varexp find s)

section Parts

variable (find : Str → Str) (expand : Str → Expansion)

def VarexpPart.lookups : VarexpPart → List Str
  | .literal _ | .literalWithDollar _ => []
  | .variable data => [data]
  | .nestedVariable data => (expand data).1 ++ [(expand data).2]

def VarexpPart.text : VarexpPart → Str
  | .literal data | .literalWithDollar data => data
  | .variable data => find data
  | .nestedVariable data => find (expand data).2

end Parts

theorem varexpRun_of_none {find : Str → Str} {s : Str} (h : varexpSplit false [] s = none) :
    varexpRun find s = ([], []) := by
  have hlookups : varexpLookups find s = [] := by
    rw [varexpLookups]
    split
    next => rfl
    next hsome => exact nomatch h.symm.trans hsome
  have hvarexp : varexp find s = [] := by
    rw [varexp]
    split
    next => rfl
    next hsome => exact nomatch h.symm.trans hsome
  rw [varexpRun, hlookups, hvarexp]

theorem varexpRun_of_some {find : Str → Str} {s : Str} {parts : List VarexpPart}
    (h : varexpSplit false [] s = some parts) :
    varexpRun find s = (parts.flatMap (VarexpPart.lookups (varexpRun find)),
      varexpPost (parts.flatMap (VarexpPart.text find (varexpRun find)))) := by
  have hlookups : varexpLookups find s = parts.flatMap (VarexpPart.lookups (varexpRun find)) := by
    rw [varexpLookups]
    split
    next hnone => exact nomatch h.symm.trans hnone
    next parts' hparts =>
      obtain rfl := Option.some.inj (h.symm.trans hparts)
      rw [List.flatMap_subtype (g := VarexpPart.lookups (varexpRun find)), List.unattach_attach]
      rintro (_ | _ | _ | _) _ <;> rfl
  have htext : varexp find s =
      varexpPost (parts.flatMap (VarexpPart.text find (varexpRun find))) := by
    rw [varexp]
    split
    next hnone => exact nomatch h.symm.trans hnone
    next parts' hparts =>
      obtain rfl := Option.some.inj (h.symm.trans hparts)
      rw [List.flatMap_subtype (g := VarexpPart.text find (varexpRun find)), List.unattach_attach]
      rintro (_ | _ | _ | _) _ <;> rfl
  rw [varexpRun, hlookups, htext]

/-! ## The parts are the pieces -/

theorem pieces_char {c : Char} {s : Str} (hbrace : ¬ ['$', '{'] <+: c :: s)
    (hdollar : ¬ ['$', '$'] <+: c :: s) : pieces (c :: s) = (pieces s).map (.char c :: ·) := by
  rw [pieces]
  · rintro s' rfl rfl
    exact hbrace ⟨s', rfl⟩
  · rintro s' rfl rfl
    exact hdollar ⟨s', rfl⟩

section Split

variable (find : Str → Str) (expand : Str → Expansion)

theorem flatMap_flush (withDollar : Bool) (buf : Str) :
    (flush withDollar buf).flatMap (VarexpPart.text find expand) = buf ∧
      (flush withDollar buf).flatMap (VarexpPart.lookups expand) = [] := by
  rw [flush]
  split
  next h => exact ⟨h.symm, rfl⟩
  next =>
    split
    · exact ⟨List.flatMap_singleton .., rfl⟩
    · exact ⟨List.flatMap_singleton .., rfl⟩

/-- The text of the parts is what stands for the marks of the pieces. -/
theorem varexpSplit_pieces (withDollar : Bool) (buf s : Str) :
    (varexpSplit withDollar buf s).map (fun parts =>
        (parts.flatMap (VarexpPart.lookups expand), parts.flatMap (VarexpPart.text find expand))) =
      (pieces s).map fun ps =>
        (lookups expand ps, buf ++ (marks find expand ps).flatMap Mark.raw) := by
  induction withDollar, buf, s using varexpSplit.induct with
  | case1 withDollar buf =>
      obtain ⟨htext, hlookups⟩ := flatMap_flush find expand withDollar buf
      rw [varexpSplit, pieces, Option.map_some, Option.map_some, htext, hlookups]
      simp [lookups, marks]
  | case2 withDollar buf s hnone => rw [varexpSplit_ref, pieces_ref, hnone]; rfl
  | case3 withDollar buf s inner rest nested hsome hrest ih =>
      obtain ⟨htext, hlookups⟩ := flatMap_flush find expand withDollar buf
      let piece := Piece.ref inner nested
      have hpart : ∀ parts : List VarexpPart, (((if nested then VarexpPart.nestedVariable inner
          else .variable inner) :: parts).flatMap (VarexpPart.lookups expand)) =
            piece.lookups expand ++ parts.flatMap (VarexpPart.lookups expand) := by
        cases nested <;> exact fun _ => rfl
      have hpartText : ∀ parts : List VarexpPart, (((if nested then VarexpPart.nestedVariable inner
          else .variable inner) :: parts).flatMap (VarexpPart.text find expand)) =
            (piece.marks find expand).flatMap Mark.raw ++
              parts.flatMap (VarexpPart.text find expand) := by
        have hraw : ∀ value : Str, (value.map Mark.char).flatMap Mark.raw = value := fun value => by
          rw [List.flatMap_map]
          exact List.flatMap_singleton' value
        cases nested <;> exact fun parts => by simp [piece, Piece.marks, VarexpPart.text, hraw]
      -- what the reference puts in front of the rest
      let front : Expansion → Expansion := fun r =>
        (piece.lookups expand ++ r.1, buf ++ ((piece.marks find expand).flatMap Mark.raw ++ r.2))
      have hfront := congrArg (Option.map front) ih
      rw [varexpSplit_ref, pieces_ref, hsome, Option.bind_some, Option.bind_some, Option.map_map,
        Option.map_map]
      rw [Option.map_map, Option.map_map] at hfront
      refine Eq.trans (congrArg (Option.map · _) ?_) (hfront.trans (congrArg (Option.map · _) ?_))
      · funext parts
        simp only [Function.comp_apply, List.flatMap_append, htext, hlookups, hpart, hpartText,
          List.nil_append, front]
      · funext ps
        simp only [Function.comp_apply, front, lookups, marks, List.flatMap_cons,
          List.flatMap_append, List.nil_append, piece]
  | case4 withDollar buf c s hc ih =>
      rw [varexpSplit, ih]
      · by_cases hdollar : c = '$'
        · subst hdollar
          rw [pieces, Option.map_map]
          simp [Function.comp_def, lookups, marks, Piece.lookups, Piece.marks, Mark.raw]
        · have hfirst : pieces ('$' :: c :: s) = (pieces (c :: s)).map (.char '$' :: ·) := by
            refine pieces_char ?_ ?_
            · rintro ⟨s', heq⟩
              injection heq with _ heq
              injection heq with heq _
              exact hc heq.symm
            · rintro ⟨s', heq⟩
              injection heq with _ heq
              injection heq with heq _
              exact hdollar heq.symm
          have hsecond : pieces (c :: s) = (pieces s).map (.char c :: ·) := by
            refine pieces_char ?_ ?_
            · rintro ⟨s', heq⟩
              injection heq with heq _
              exact hdollar heq.symm
            · rintro ⟨s', heq⟩
              injection heq with heq _
              exact hdollar heq.symm
          rw [hfirst, hsecond, Option.map_map, Option.map_map]
          simp [Function.comp_def, lookups, marks, Piece.lookups, Piece.marks, Mark.raw]
      · exact hc
  | case5 withDollar buf c s hc hc' ih =>
      have hchar : pieces (c :: s) = (pieces s).map (.char c :: ·) := by
        refine pieces_char ?_ ?_
        · rintro ⟨s', heq⟩
          injection heq with hdollar hs
          exact hc s' hdollar.symm hs.symm
        · rintro ⟨s', heq⟩
          injection heq with hdollar hs
          exact hc' _ s' hdollar.symm hs.symm
      rw [varexpSplit, ih, hchar, Option.map_map]
      · simp [Function.comp_def, lookups, marks, Piece.lookups, Piece.marks, Mark.raw]
      · exact hc
      · exact hc'

end Split

/-! ## Dollars that meet -/

/-- No run of dollars holds two that are not written `$$`; `isOpen` if there is one in the
run already. -/
def DollarsApart : (isOpen : Bool) → List Mark → Prop
  | _, [] => True
  | isOpen, .dollar :: ms => DollarsApart isOpen ms
  | isOpen, .char c :: ms =>
      if c = '$' then isOpen = false ∧ DollarsApart true ms else DollarsApart false ms

theorem varexpPost_cons {c : Char} {s : Str} (h : ¬ ['$', '$'] <+: c :: s) :
    varexpPost (c :: s) = c :: varexpPost s := by
  rw [varexpPost]
  rintro s' rfl rfl
  exact h ⟨s', rfl⟩

/-- In front of a run that is open stands the dollar that opened it. -/
def openRun (isOpen : Bool) : Str := if isOpen then ['$'] else []

theorem varexpPost_openRun {isOpen : Bool} {c : Char} {s : Str} (hc : c ≠ '$') :
    varexpPost (openRun isOpen ++ c :: s) = openRun isOpen ++ c :: varexpPost s := by
  have hchar : varexpPost (c :: s) = c :: varexpPost s := varexpPost_cons <| by
    rintro ⟨s', heq⟩
    injection heq with heq _
    exact hc heq.symm
  cases isOpen with
  | false => exact hchar
  | true =>
      have hdollar : varexpPost ('$' :: c :: s) = '$' :: varexpPost (c :: s) :=
        varexpPost_cons <| by
        rintro ⟨s', heq⟩
        injection heq with _ heq
        injection heq with heq _
        exact hc heq.symm
      exact hdollar.trans (congrArg ('$' :: ·) hchar)

theorem varexpPost_dollar (isOpen : Bool) (s : Str) :
    varexpPost (openRun isOpen ++ '$' :: '$' :: s) = '$' :: varexpPost (openRun isOpen ++ s) := by
  cases isOpen <;> rfl

/-- The text is at most as long as the expansion. -/
theorem length_varexpPost_le (isOpen : Bool) (ms : List Mark) :
    (varexpPost (openRun isOpen ++ ms.flatMap Mark.raw)).length ≤
      (openRun isOpen).length + ms.length := by
  induction ms generalizing isOpen with
  | nil => cases isOpen <;> simp [openRun, varexpPost]
  | cons m ms ih =>
      cases m with
      | dollar =>
          show (varexpPost (openRun isOpen ++ '$' :: '$' :: ms.flatMap Mark.raw)).length ≤ _
          rw [varexpPost_dollar, List.length_cons, List.length_cons]
          exact Nat.add_le_add_right (ih isOpen) 1
      | char c =>
          show (varexpPost (openRun isOpen ++ c :: ms.flatMap Mark.raw)).length ≤ _
          by_cases hc : c = '$'
          · subst hc
            cases isOpen with
            | false => simpa [openRun, Nat.add_comm] using ih true
            | true =>
                have hle := ih false
                simp only [openRun, Bool.false_eq_true, if_false, if_true, List.nil_append,
                  List.cons_append, List.length_nil, List.length_cons, varexpPost] at hle ⊢
                omega
          · have hle := ih false
            rw [varexpPost_openRun hc]
            simp only [openRun, Bool.false_eq_true, if_false, List.nil_append,
              List.length_nil, List.length_append, List.length_cons] at hle ⊢
            omega

/-- `varexp_post` leaves the expansion exactly if no two such dollars meet. -/
theorem varexpPost_eq_iff (isOpen : Bool) (ms : List Mark) :
    varexpPost (openRun isOpen ++ ms.flatMap Mark.raw) = openRun isOpen ++ ms.map Mark.text ↔
      DollarsApart isOpen ms := by
  induction ms generalizing isOpen with
  | nil => cases isOpen <;> simp [openRun, varexpPost, DollarsApart]
  | cons m ms ih =>
      cases m with
      | dollar =>
          show varexpPost (openRun isOpen ++ '$' :: '$' :: ms.flatMap Mark.raw) =
            openRun isOpen ++ '$' :: ms.map Mark.text ↔ _
          have hswap : openRun isOpen ++ '$' :: ms.map Mark.text =
              '$' :: (openRun isOpen ++ ms.map Mark.text) := by
            cases isOpen <;> rfl
          rw [varexpPost_dollar, hswap, List.cons_inj_right, ih, DollarsApart]
      | char c =>
          show varexpPost (openRun isOpen ++ c :: ms.flatMap Mark.raw) =
            openRun isOpen ++ c :: ms.map Mark.text ↔ _
          rw [DollarsApart]
          by_cases hc : c = '$'
          · subst hc
            rw [if_pos rfl]
            cases isOpen with
            | false => simpa [openRun] using ih true
            | true =>
                refine iff_of_false (fun heq => ?_) (fun h => nomatch h.1)
                -- two dollars became one
                have hlen := congrArg List.length heq
                have hle := length_varexpPost_le false ms
                simp only [openRun, if_true, Bool.false_eq_true, if_false, List.nil_append,
                  List.cons_append, varexpPost, List.length_cons, List.length_nil,
                  List.length_map] at hlen hle
                omega
          · rw [if_neg hc, varexpPost_openRun hc, List.append_cancel_left_eq, List.cons_inj_right,
              ← ih false]
            rfl

/-! ## Where `varexp` expands a template -/

section Run

variable {find : Str → Str} {s : Str}

theorem varexpRun_of_pieces_none (h : pieces s = none) : varexpRun find s = ([], []) := by
  have hsplit := varexpSplit_pieces find (varexpRun find) false [] s
  rw [h, Option.map_none, Option.map_eq_none_iff] at hsplit
  exact varexpRun_of_none hsplit

theorem varexpRun_of_pieces {ps : List Piece} (h : pieces s = some ps) :
    varexpRun find s = (lookups (varexpRun find) ps,
      varexpPost ((marks find (varexpRun find) ps).flatMap Mark.raw)) := by
  have hsplit := varexpSplit_pieces find (varexpRun find) false [] s
  rw [h, Option.map_some] at hsplit
  obtain ⟨parts, hparts, heq⟩ := Option.map_eq_some_iff.mp hsplit
  obtain ⟨hlookups, htext⟩ := Prod.mk.inj heq
  rw [varexpRun_of_some hparts, hlookups, htext, List.nil_append]

theorem expand_of_pieces {ps : List Piece} (h : pieces s = some ps) :
    expand find s =
      (lookups (expand find) ps, (marks find (expand find) ps).map Mark.text) := by
  rw [expand_eq, h]

theorem expand_of_pieces_none (h : pieces s = none) : expand find s = ([], []) := by
  rw [expand_eq, h]

/-- Lists of lookups that are as long for each name are equal name by name. -/
theorem eq_of_lookups_eq {expand expand' : Str → Expansion} {ps : List Piece}
    (hlength : ∀ name, .ref name true ∈ ps → (expand name).1.length = (expand' name).1.length)
    (h : lookups expand ps = lookups expand' ps) :
    ∀ name, .ref name true ∈ ps → expand name = expand' name := by
  induction ps with
  | nil => exact fun name hmem => absurd hmem List.not_mem_nil
  | cons p ps ih =>
      have hlengthRest : ∀ name, .ref name true ∈ ps →
          (expand name).1.length = (expand' name).1.length := fun name hmem =>
        hlength name (List.mem_cons_of_mem p hmem)
      have hfront : (p.lookups expand).length = (p.lookups expand').length := by
        rcases p with c | _ | ⟨name, _ | _⟩
        · rfl
        · rfl
        · rfl
        · simp only [Piece.lookups, List.length_append, List.length_singleton,
            hlength name List.mem_cons_self]
      obtain ⟨hp, hrest⟩ := List.append_inj h hfront
      intro name hmem
      rcases List.mem_cons.mp hmem with rfl | hmem
      · obtain ⟨hnames, hname⟩ := List.append_inj' hp rfl
        exact Prod.ext hnames (List.singleton_inj.mp hname)
      · exact ih hlengthRest hrest name hmem

theorem length_lookups_eq {expand expand' : Str → Expansion} {ps : List Piece}
    (hlength : ∀ name, .ref name true ∈ ps → (expand name).1.length = (expand' name).1.length) :
    (lookups expand ps).length = (lookups expand' ps).length := by
  rw [lookups, lookups, List.length_flatMap, List.length_flatMap]
  refine congrArg List.sum (List.map_congr_left fun p hp => ?_)
  rcases p with c | _ | ⟨name, _ | _⟩
  · rfl
  · rfl
  · rfl
  · simp only [Piece.lookups, List.length_append, List.length_singleton, hlength name hp]

/-- `varexp` looks as many names up as the template has references. -/
theorem length_varexpRun (find : Str → Str) (s : Str) :
    (varexpRun find s).1.length = (expand find s).1.length := by
  induction hn : s.length using Nat.strong_induction_on generalizing s with
  | _ n ih =>
      cases hps : pieces s with
      | none => rw [varexpRun_of_pieces_none hps, expand_of_pieces_none hps]
      | some ps =>
          rw [varexpRun_of_pieces hps, expand_of_pieces hps]
          exact length_lookups_eq fun name hmem =>
            ih _ (hn ▸ length_lt_of_mem_pieces hps hmem) name rfl

end Run

/-- The templates that are expanded on the way: the template itself and the names with
references in them. -/
inductive ExpandedIn : Str → Str → Prop where
  | self (s : Str) : ExpandedIn s s
  | name {t name s : Str} {ps : List Piece} : pieces s = some ps → .ref name true ∈ ps →
      ExpandedIn t name → ExpandedIn t s

/-- In no text of the way do two dollars meet that are not written `$$`. -/
def DollarsApartIn (find : Str → Str) (s : Str) : Prop :=
  ∀ t ps, ExpandedIn t s → pieces t = some ps → DollarsApart false (marks find (expand find) ps)

theorem dollarsApartIn_of_some {find : Str → Str} {s : Str} {ps : List Piece}
    (hps : pieces s = some ps) : DollarsApartIn find s ↔
      (∀ name, .ref name true ∈ ps → DollarsApartIn find name) ∧
        DollarsApart false (marks find (expand find) ps) := by
  constructor
  · intro h
    exact ⟨fun name hmem t ps' ht => h t ps' (.name hps hmem ht), h s ps (.self s) hps⟩
  · rintro ⟨hnames, hs⟩ t ps' ht hps'
    cases ht with
    | self =>
        obtain rfl := Option.some.inj (hps.symm.trans hps')
        exact hs
    | name hps'' hmem ht =>
        obtain rfl := Option.some.inj (hps.symm.trans hps'')
        exact hnames _ hmem t ps' ht hps'

/-- `varexp` looks up the names of the expansion and comes to its text exactly if no two
dollars meet on the way that are not written `$$`. -/
theorem varexp_expands_iff (find : Str → Str) (s : Str) :
    varexpRun find s = expand find s ↔ DollarsApartIn find s := by
  induction hn : s.length using Nat.strong_induction_on generalizing s with
  | _ n ih =>
      cases hps : pieces s with
      | none =>
          rw [varexpRun_of_pieces_none hps, expand_of_pieces_none hps]
          refine iff_of_true rfl fun t ps ht hps' => ?_
          cases ht with
          | self => exact nomatch hps.symm.trans hps'
          | name hps'' _ _ => exact nomatch hps.symm.trans hps''
      | some ps =>
          have hname : ∀ name, .ref name true ∈ ps →
              (varexpRun find name = expand find name ↔ DollarsApartIn find name) :=
            fun name hmem => ih _ (hn ▸ length_lt_of_mem_pieces hps hmem) name rfl
          rw [varexpRun_of_pieces hps, expand_of_pieces hps, dollarsApartIn_of_some hps,
            Prod.mk.injEq]
          constructor
          · rintro ⟨hlookups, htext⟩
            have hexpand := eq_of_lookups_eq (fun name _ => length_varexpRun find name) hlookups
            rw [marks_congr hexpand] at htext
            exact ⟨fun name hmem => (hname name hmem).mp (hexpand name hmem),
              (varexpPost_eq_iff false _).mp htext⟩
          · rintro ⟨hnames, hmarks⟩
            have hexpand := fun name hmem => (hname name hmem).mpr (hnames name hmem)
            rw [lookups_congr hexpand, marks_congr hexpand]
            exact ⟨rfl, (varexpPost_eq_iff false _).mpr hmarks⟩

/-- A value with `$$` in it loses a dollar. -/
theorem not_varexp_expands :
    varexpRun (fun _ => "$$".toList) "${a}".toList ≠
      expand (fun _ => "$$".toList) "${a}".toList := by
  have hps : pieces "${a}".toList = some [.ref ['a'] false] := by
    show pieces ('$' :: '{' :: ['a', '}']) = _
    have hclose : closeBrace 1 ['a', '}'] = some (['a'], [], false) := by decide
    rw [pieces_ref, hclose, Option.bind_some, pieces]
    rfl
  rw [varexpRun_of_pieces hps, expand_of_pieces hps]
  decide

end Lorelei.Support
