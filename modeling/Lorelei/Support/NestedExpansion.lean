import Mathlib.Logic.Relation
import Lorelei.Lib.Environment
import Lorelei.Support.Expansion

/-!
# The recursion of `varexp`

`varexp` calls itself on the parts in which a reference is nested (`Calls`). The counter that
cuts such a part out takes every `${` and every `}` into account. The scan that the part is
given to next skips a dollar with the character behind it, and takes a `}` for a character like
any other, so the two do not agree on what is open.

Whatever the scan has skipped, the counter has closed in the part what is open there
(`Closes`), and a reference that the scan gets to is one of these. So the split of a part
succeeds, and only the template itself can have a reference that is not closed (`Unclosed`).
The counter, an `int` in the source, is a natural number.
-/

namespace Lorelei.Support

open Relation

/-! ## The recursion -/

/-- The text of a part, given the calls of `varexp` that it makes. -/
def VarexpPart.textBy (find : Str → Str) (expand : Str → Option Str) : VarexpPart → Option Str
  | .literal data | .literalWithDollar data => some data
  | .variable data => some (find data)
  | .nestedVariable data => (expand data).map find

/-- `varexp` with at most so many calls inside one another. -/
def varexpTo (find : Str → Str) : (depth : Nat) → Str → Option Str
  | 0, _ => none
  | depth + 1, s =>
      match varexpSplit false [] s with
      | none => some []
      | some parts =>
          (parts.mapM (VarexpPart.textBy find (varexpTo find depth))).map fun texts =>
            varexpPost texts.flatten

/-- To expand `s`, `varexp` calls itself on `t`. -/
def Calls (t s : Str) : Prop :=
  ∃ parts, varexpSplit false [] s = some parts ∧ .nestedVariable t ∈ parts

/-- A reference of the template, outside of all others, is not closed. -/
inductive Unclosed : Str → Prop where
  | here {s : Str} : (∀ name rest, s = name ++ '}' :: rest → ¬ Balanced name) →
      Unclosed ('$' :: '{' :: s)
  | ref {name rest : Str} : Balanced name → Unclosed rest →
      Unclosed ('$' :: '{' :: (name ++ '}' :: rest))
  | dollar {c : Char} {s : Str} : c ≠ '{' → Unclosed s → Unclosed ('$' :: c :: s)
  | char {c : Char} {s : Str} : c ≠ '$' → Unclosed s → Unclosed (c :: s)

/-! ## What the counter has closed -/

theorem Closes.append {m n : Nat} {s t : Str} (hs : Closes m s) (ht : Closes n t) :
    Closes (m + n + 1) (s ++ '}' :: t) := by
  induction m generalizing s with
  | zero =>
      rw [Nat.zero_add]
      exact ⟨s, t, rfl, hs, ht⟩
  | succ m ih =>
      obtain ⟨a, b, rfl, ha, hb⟩ := hs
      rw [Nat.add_right_comm m 1 n]
      exact ⟨a, b ++ '}' :: t, by simp, ha, ih hb⟩

/-- Behind its first character a name may close a reference that the character has opened. -/
theorem Balanced.tail {c : Char} {s : Str} (h : Balanced (c :: s)) : ∃ n, Closes n s := by
  cases h with
  | char _ _ hs => exact ⟨0, hs⟩
  | @ref name t hname ht =>
      have hbrace : Balanced ('{' :: name) := by
        refine .char (by decide) ?_ hname
        rintro ⟨rest, heq⟩
        exact absurd (List.cons.inj heq).1 (by decide)
      exact ⟨1, '{' :: name, t, rfl, hbrace, ht⟩

/-- The scan may skip a character. -/
theorem Closes.tail {n : Nat} {c : Char} {s : Str} (h : Closes n (c :: s)) :
    ∃ m, Closes m s := by
  cases n with
  | zero => exact Balanced.tail h
  | succ n =>
      obtain ⟨a, b, heq, ha, hb⟩ := h
      cases a with
      | nil =>
          obtain ⟨-, rfl⟩ := List.cons.inj heq
          exact ⟨n, hb⟩
      | cons c' a =>
          obtain ⟨-, rfl⟩ := List.cons.inj heq
          obtain ⟨m, hm⟩ := ha.tail
          exact ⟨_, hm.append hb⟩

theorem Balanced.of_ref {s : Str} (h : Balanced ('$' :: '{' :: s)) :
    ∃ name t, s = name ++ '}' :: t ∧ Balanced name ∧ Balanced t := by
  cases h with
  | char _ hbrace _ => exact absurd ⟨s, rfl⟩ hbrace
  | @ref name t hname ht => exact ⟨name, t, rfl, hname, ht⟩

/-- A reference that the scan gets to is closed in the text. -/
theorem Closes.of_ref {n : Nat} {s : Str} (h : Closes n ('$' :: '{' :: s)) :
    ∃ name rest m, s = name ++ '}' :: rest ∧ Balanced name ∧ Closes m rest := by
  cases n with
  | zero =>
      obtain ⟨name, t, rfl, hname, ht⟩ := Balanced.of_ref h
      exact ⟨name, t, 0, rfl, hname, ht⟩
  | succ n =>
      obtain ⟨a, b, heq, ha, hb⟩ := h
      rcases a with _ | ⟨c, _ | ⟨c', a⟩⟩
      · exact absurd (List.cons.inj heq).1 (by decide)
      · exact absurd (List.cons.inj (List.cons.inj heq).2).1 (by decide)
      · obtain ⟨hdollar, heq⟩ := List.cons.inj heq
        obtain ⟨rfl, rfl⟩ := List.cons.inj heq
        rw [← hdollar] at ha
        obtain ⟨name, t, rfl, hname, ht⟩ := ha.of_ref
        refine ⟨name, t ++ '}' :: b, n + 1, by simp, hname, ?_⟩
        exact ⟨t, b, rfl, ht, hb⟩

/-! ## Where the split fails -/

/-- Only one `}` closes a reference. -/
theorem Balanced.eq_of_append {name rest name' rest' : Str} (h : Balanced name)
    (h' : Balanced name') (heq : name ++ '}' :: rest = name' ++ '}' :: rest') :
    name = name' ∧ rest = rest' := by
  have hclose : closeBrace 1 (name ++ '}' :: rest) = some (name, rest, _) :=
    closeBrace_eq_some_iff.mpr ⟨rfl, h, rfl⟩
  rw [closeBrace_eq_some_iff.mpr ⟨heq, h', rfl⟩] at hclose
  cases hclose
  exact ⟨rfl, rfl⟩

/-- Behind a reference that is closed, the template goes on. -/
theorem Unclosed.of_ref {name rest : Str} (hname : Balanced name)
    (h : Unclosed ('$' :: '{' :: (name ++ '}' :: rest))) : Unclosed rest := by
  generalize hs : '$' :: '{' :: (name ++ '}' :: rest) = s at h
  cases h with
  | here hnot =>
      obtain ⟨-, hs⟩ := List.cons.inj hs
      obtain ⟨-, rfl⟩ := List.cons.inj hs
      exact absurd hname (hnot name rest rfl)
  | ref hname' hrest' =>
      obtain ⟨-, hs⟩ := List.cons.inj hs
      obtain ⟨-, hs⟩ := List.cons.inj hs
      obtain ⟨-, rfl⟩ := hname.eq_of_append hname' hs
      exact hrest'
  | dollar hc _ =>
      obtain ⟨-, hs⟩ := List.cons.inj hs
      exact absurd (List.cons.inj hs).1.symm hc
  | char hc _ => exact absurd (List.cons.inj hs).1.symm hc

/-- In a text that closes what is open in it, every reference is closed. -/
theorem Unclosed.not_closes {s : Str} (h : Unclosed s) (n : Nat) : ¬ Closes n s := by
  induction h generalizing n with
  | here hnot =>
      intro hcloses
      obtain ⟨name, rest, -, heq, hname, -⟩ := hcloses.of_ref
      exact hnot name rest heq hname
  | ref hname _ ih =>
      intro hcloses
      obtain ⟨name', rest', m, heq, hname', hrest'⟩ := hcloses.of_ref
      obtain ⟨-, rfl⟩ := hname.eq_of_append hname' heq
      exact ih m hrest'
  | dollar _ _ ih =>
      intro hcloses
      obtain ⟨m, hm⟩ := hcloses.tail
      obtain ⟨k, hk⟩ := hm.tail
      exact ih k hk
  | char _ _ ih =>
      intro hcloses
      obtain ⟨m, hm⟩ := hcloses.tail
      exact ih m hm

/-- The split fails exactly at a reference, outside of all others, that is not closed. -/
theorem varexpSplit_eq_none_iff {withDollar : Bool} {buf s : Str} :
    varexpSplit withDollar buf s = none ↔ Unclosed s := by
  induction withDollar, buf, s using varexpSplit.induct with
  | case1 =>
      rw [varexpSplit]
      constructor
      · intro h
        cases h
      · intro h
        cases h
  | case2 withDollar buf s hnone =>
      rw [varexpSplit_ref, hnone]
      refine iff_of_true rfl (.here fun name rest heq hname => ?_)
      rw [closeBrace_eq_some_iff.mpr ⟨heq, hname, rfl⟩] at hnone
      cases hnone
  | case3 withDollar buf s name rest nested hsome _ ih =>
      obtain ⟨heq, hname, -⟩ := closeBrace_eq_some_iff.mp hsome
      rw [varexpSplit_ref, hsome, Option.bind_some, Option.map_eq_none_iff, ih]
      subst heq
      exact ⟨.ref hname, .of_ref hname⟩
  | case4 withDollar buf c s hc ih =>
      have hbrace : c ≠ '{' := fun h => hc h
      rw [varexpSplit, ih]
      · constructor
        · exact .dollar hbrace
        · intro h
          cases h with
          | here => exact absurd rfl hbrace
          | ref => exact absurd rfl hbrace
          | dollar _ h => exact h
          | char h => exact absurd rfl h
      · exact hc
  | case5 withDollar buf c s hc hc' ih =>
      rw [varexpSplit, ih]
      · constructor
        · intro h
          by_cases hdollar : c = '$'
          · cases s with
            | nil => cases h
            | cons c' s => exact absurd rfl (hc' c' s hdollar)
          · exact .char hdollar h
        · intro h
          cases h with
          | @here s _ => exact absurd rfl (hc s rfl)
          | ref => exact absurd rfl (hc _ rfl)
          | dollar _ h => exact absurd rfl (hc' _ _ rfl)
          | char _ h => exact h
      · exact hc
      · exact hc'

/-! ## The recursion ends -/

theorem Calls.length_lt {t s : Str} (h : Calls t s) : t.length < s.length := by
  obtain ⟨parts, hparts, ht⟩ := h
  exact length_lt_of_nested hparts ht

/-- What `varexp` calls itself on can be split. -/
theorem Calls.exists_varexpSplit {t s : Str} (h : Calls t s) :
    ∃ parts, varexpSplit false [] t = some parts := by
  obtain ⟨parts, hparts, ht⟩ := h
  obtain ⟨u, rest, -, hclose⟩ := exists_closeBrace_of_nested hparts ht
  have hcloses : Closes 0 t := (closeBrace_eq_some_iff.mp hclose).2.1
  refine Option.ne_none_iff_exists'.mp fun hnone => ?_
  exact (varexpSplit_eq_none_iff.mp hnone).not_closes 0 hcloses

theorem mapM_textBy {find : Str → Str} {expand : Str → Option Str} {parts : List VarexpPart}
    (h : ∀ t, .nestedVariable t ∈ parts → expand t = some (varexp find t)) :
    parts.mapM (VarexpPart.textBy find expand) =
      some (parts.map (VarexpPart.text find (varexpRun find))) := by
  rw [Environment.mapM_eq_some_iff, List.forall₂_map_right_iff, List.forall₂_same]
  rintro (data | data | data | data) hmem
  · rfl
  · rfl
  · rfl
  · rw [VarexpPart.textBy, h data hmem]
    rfl

/-- A depth above the length of the template is enough. -/
theorem varexpTo_eq (find : Str → Str) {depth : Nat} {s : Str} (h : s.length < depth) :
    varexpTo find depth s = some (varexp find s) := by
  induction depth generalizing s with
  | zero => exact absurd h (Nat.not_lt_zero _)
  | succ depth ih =>
      rw [varexpTo]
      cases hsplit : varexpSplit false [] s with
      | none => exact congrArg some (Prod.mk.inj (varexpRun_of_none hsplit)).2.symm
      | some parts =>
          have hnested : ∀ t, .nestedVariable t ∈ parts →
              varexpTo find depth t = some (varexp find t) := by
            intro t ht
            have hlt := length_lt_of_nested hsplit ht
            exact ih (by omega)
          have hvarexp := (Prod.mk.inj (@varexpRun_of_some find s parts hsplit)).2
          rw [hvarexp]
          dsimp only
          rw [mapM_textBy hnested, Option.map_some, List.flatMap_def]

/-- What becomes of the calls that the expansion of a template makes. -/
structure RecursionEnds (find : Str → Str) (s : Str) : Prop where
  returns : ∃ enough, ∀ depth, enough ≤ depth → varexpTo find depth s = some (varexp find s)
  shorter : ∀ t u, ReflTransGen Calls u s → Calls t u → t.length < u.length
  succeeds : ∀ parts, varexpSplit false [] s = some parts → ∀ t, TransGen Calls t s →
    ∃ parts', varexpSplit false [] t = some parts'
  fails : ∀ t, ReflTransGen Calls t s → varexpSplit false [] t = none → t = s ∧ Unclosed s

/-- The recursion of `varexp` ends, and no split fails in it but that of a template with a
reference that is not closed. -/
theorem varexp_recursion (find : Str → Str) (s : Str) : RecursionEnds find s where
  returns := ⟨s.length + 1, fun _ hdepth => varexpTo_eq find hdepth⟩
  shorter _ _ _ hcall := hcall.length_lt
  succeeds _ _ t ht := by
    obtain ⟨u, hcall, -⟩ := TransGen.head'_iff.mp ht
    exact hcall.exists_varexpSplit
  fails t ht hnone := by
    rcases ReflTransGen.cases_head ht with rfl | ⟨u, hcall, -⟩
    · exact ⟨rfl, varexpSplit_eq_none_iff.mp hnone⟩
    · obtain ⟨parts, hparts⟩ := hcall.exists_varexpSplit
      exact nomatch hnone.symm.trans hparts

end Lorelei.Support
