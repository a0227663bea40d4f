import Mathlib.Data.List.DropRight
import Mathlib.Data.List.Infix

/-!
# Strings and variable expansion

A `std::string` is a list of characters, NUL included, and a C string is the part
before the first NUL.  `varexp` expands the `${...}` references of a template.
-/

namespace Lorelei.Support

abbrev Str := List Char

instance lawfulBEq_str : LawfulBEq Str := inferInstance

/-- The C string at the address of a buffer: it ends at the first NUL. -/
def cString (s : Str) : Str := s.takeWhile (· ≠ '\x00')

theorem cString_eq_self_iff {s : Str} : cString s = s ↔ '\x00' ∉ s := by
  rw [cString, List.takeWhile_eq_self_iff]
  constructor
  · intro h hmem
    simpa using h _ hmem
  · intro h c hc
    exact decide_eq_true fun heq => h (heq ▸ hc)

/-! ## `varexp` -/

/-- `varexp_part`. -/
inductive VarexpPart where
  | literal (data : Str)
  | literalWithDollar (data : Str)
  | variable (data : Str)
  | nestedVariable (data : Str)
deriving DecidableEq, Repr

/-- The scan for the brace that closes a reference: what is in front of it, what follows
it, and whether a reference is nested in between. -/
def closeBrace : (braceCount : Nat) → Str → Option (Str × Str × Bool)
  | _, [] => none
  | n, '$' :: '{' :: s => (closeBrace (n + 1) s).map fun r => ('$' :: '{' :: r.1, r.2.1, true)
  | n, '}' :: s =>
      if n ≤ 1 then some ([], s, false)
      else (closeBrace (n - 1) s).map fun r => ('}' :: r.1, r.2)
  | n, c :: s => (closeBrace n s).map fun r => (c :: r.1, r.2)

/-- The literal run that has been read, unless it is empty. -/
def flush (withDollar : Bool) (buf : Str) : List VarexpPart :=
  if buf = [] then [] else if withDollar then [.literalWithDollar buf] else [.literal buf]

theorem closeBrace_append {n : Nat} {s : Str} {r : Str × Str × Bool}
    (h : closeBrace n s = some r) : s = r.1 ++ '}' :: r.2.1 := by
  induction n, s using closeBrace.induct generalizing r with
  | case1 => cases h
  | case2 n s ih =>
      rw [closeBrace] at h
      obtain ⟨r', hr', rfl⟩ := Option.map_eq_some_iff.mp h
      exact congrArg ('$' :: '{' :: ·) (ih hr')
  | case3 n s hn =>
      rw [closeBrace, if_pos hn] at h
      obtain rfl := Option.some.inj h
      rfl
  | case4 n s hn ih =>
      rw [closeBrace, if_neg hn] at h
      obtain ⟨r', hr', rfl⟩ := Option.map_eq_some_iff.mp h
      exact congrArg ('}' :: ·) (ih hr')
  | case5 n c s _ _ ih =>
      rw [closeBrace] at h
      · obtain ⟨r', hr', rfl⟩ := Option.map_eq_some_iff.mp h
        exact congrArg (c :: ·) (ih hr')
      all_goals assumption

theorem closeBrace_length {n : Nat} {s : Str} {r : Str × Str × Bool}
    (h : closeBrace n s = some r) : r.1.length + r.2.1.length < s.length := by
  have hlen := congrArg List.length (closeBrace_append h)
  rw [List.length_append, List.length_cons] at hlen
  omega

theorem closeBrace_suffix {n : Nat} {s : Str} {r : Str × Str × Bool}
    (h : closeBrace n s = some r) : r.2.1 <:+ s := by
  rw [closeBrace_append h, List.append_cons]
  exact List.suffix_append _ _

/-- `varexp_split`, with the literal run read so far. -/
def varexpSplit (withDollar : Bool) (buf : Str) : Str → Option (List VarexpPart)
  | [] => some (flush withDollar buf)
  | '$' :: '{' :: s =>
      match h : closeBrace 1 s with
      | none => none
      | some (inner, rest, nested) =>
          have : rest.length < s.length + 2 := by
            have hlt := closeBrace_length h
            simp only at hlt
            omega
          (varexpSplit false [] rest).map fun parts =>
            flush withDollar buf ++
              (if nested then .nestedVariable inner else .variable inner) :: parts
  | '$' :: c :: s => varexpSplit true (buf ++ ['$', c]) s
  | c :: s => varexpSplit withDollar (buf ++ [c]) s
termination_by s => s.length

theorem varexpSplit_ref (withDollar : Bool) (buf s : Str) :
    varexpSplit withDollar buf ('$' :: '{' :: s) = (closeBrace 1 s).bind fun r =>
      (varexpSplit false [] r.2.1).map fun parts => flush withDollar buf ++
        (if r.2.2 then VarexpPart.nestedVariable r.1 else .variable r.1) :: parts := by
  rw [varexpSplit]
  split
  next h => rw [h, Option.bind_none]
  next h => simp only [h, Option.bind_some]

/-- `varexp_post`. -/
def varexpPost : Str → Str
  | [] => []
  | '$' :: '$' :: s => '$' :: varexpPost s
  | c :: s => c :: varexpPost s

theorem notMem_flush {withDollar : Bool} {buf t : Str} :
    .nestedVariable t ∉ flush withDollar buf := by
  cases withDollar <;> by_cases h : buf = [] <;> simp [flush, h]

/-- A nested reference has been cut out of the text behind its `${`. -/
theorem exists_closeBrace_of_nested {withDollar : Bool} {buf s t : Str} {parts : List VarexpPart}
    (h : varexpSplit withDollar buf s = some parts) (ht : .nestedVariable t ∈ parts) :
    ∃ u rest, '$' :: '{' :: u <:+ s ∧ closeBrace 1 u = some (t, rest, true) := by
  induction withDollar, buf, s using varexpSplit.induct generalizing parts with
  | case1 =>
      rw [varexpSplit] at h
      obtain rfl := Option.some.inj h
      exact absurd ht notMem_flush
  | case2 withDollar buf s hnone =>
      rw [varexpSplit_ref, hnone] at h
      cases h
  | case3 withDollar buf s inner rest nested hsome hrest ih =>
      rw [varexpSplit_ref, hsome, Option.bind_some] at h
      obtain ⟨parts', hparts', rfl⟩ := Option.map_eq_some_iff.mp h
      rcases List.mem_append.mp ht with ht | ht
      · exact absurd ht notMem_flush
      · rcases List.mem_cons.mp ht with heq | ht
        · cases nested <;> cases heq
          exact ⟨s, rest, List.suffix_refl _, hsome⟩
        · obtain ⟨u, rest', hu, hclose⟩ := ih hparts' ht
          have hsuffix := (closeBrace_suffix hsome).trans (List.suffix_append ['$', '{'] s)
          exact ⟨u, rest', hu.trans hsuffix, hclose⟩
  | case4 withDollar buf c s hc ih =>
      rw [varexpSplit] at h
      · obtain ⟨u, rest, hu, hclose⟩ := ih h ht
        exact ⟨u, rest, hu.trans (List.suffix_append ['$', c] s), hclose⟩
      all_goals assumption
  | case5 withDollar buf c s hc hc' ih =>
      rw [varexpSplit] at h
      · obtain ⟨u, rest, hu, hclose⟩ := ih h ht
        exact ⟨u, rest, hu.trans (List.suffix_cons c s), hclose⟩
      all_goals assumption

/-- A nested reference is shorter than the text it comes from. -/
theorem length_lt_of_nested {withDollar : Bool} {buf s t : Str} {parts : List VarexpPart}
    (h : varexpSplit withDollar buf s = some parts) (ht : .nestedVariable t ∈ parts) :
    t.length < s.length := by
  obtain ⟨u, rest, hu, hclose⟩ := exists_closeBrace_of_nested h ht
  have hlt := closeBrace_length hclose
  have hle := hu.length_le
  simp only [List.length_cons] at hlt hle
  omega

def varexp (find : Str → Str) (s : Str) : Str :=
  match h : varexpSplit false [] s with
  | none => []
  | some parts =>
      varexpPost (parts.attach.flatMap fun part =>
        match hpart : part.1 with
        | .literal data | .literalWithDollar data => data
        | .variable data => find data
        | .nestedVariable data =>
            have : data.length < s.length := length_lt_of_nested h (hpart ▸ part.2)
            find (varexp find data))
termination_by s.length

/-! ## Pieces of strings -/

namespace str

/-- The tokens of `split`, with the part of a token read so far; the first `skip`
characters belong to a delimiter. -/
def splitFrom (delimiter : Str) (token : Str) : (skip : Nat) → Str → List Str
  | _, [] => [token]
  | skip + 1, _ :: s => splitFrom delimiter token skip s
  | 0, c :: s =>
      if delimiter <+: c :: s then token :: splitFrom delimiter [] (delimiter.length - 1) s
      else splitFrom delimiter (token ++ [c]) 0 s

/-- `str::split`. -/
def split (s delimiter : Str) : List Str := splitFrom delimiter [] 0 s

def isSpace (c : Char) : Bool :=
  c = ' ' || c = '\t' || c = '\n' || c = '\x0b' || c = '\x0c' || c = '\r'

/-- `str::trim`. -/
def trim (s : Str) : Str := (s.dropWhile isSpace).rdropWhile isSpace

/-- `str::to_lower`. -/
def toLower (s : Str) : Str := s.map Char.toLower

/-- The loop of `replace`; the first `skip` characters belong to an occurrence. -/
def replaceFrom (before after : Str) : (skip : Nat) → Str → Str
  | _, [] => []
  | skip + 1, _ :: s => replaceFrom before after skip s
  | 0, c :: s =>
      if before <+: c :: s then after ++ replaceFrom before after (before.length - 1) s
      else c :: replaceFrom before after 0 s

/-- `str::replace`. -/
def replace (s before after : Str) : Str :=
  if before = [] then s else replaceFrom before after 0 s

end str

end Lorelei.Support
