import Mathlib.Algebra.Group.Nat.Defs
import Mathlib.Data.List.TakeWhile
import Lorelei.Support.StringExtras

/-!
# Placeholders in a format string

`format` replaces `%1`, `%2` and so on by arguments. It walks over the format once and keeps
the literal text read since the last part, so a placeholder that is out of range stays in that
text. The number of a placeholder is computed in an `int`; where it does not fit the behaviour
is undefined, and the run has no result.
-/

namespace Lorelei.Support

/-! ## The code -/

def digitValue (c : Char) : Nat := c.toNat - '0'.toNat

/-- The loop `index = index * 10 + (*q - '0')` over a run of digits. -/
def accumulate (index : Nat) : Str → Option Nat
  | [] => some index
  | c :: digits =>
      if index * 10 + digitValue c < 2 ^ 31 then accumulate (index * 10 + digitValue c) digits
      else none

/-- The text from `segment_start` on, unless it is empty. -/
def pushed (segment : Str) : List Str := if segment = [] then [] else [segment]

/-- The parts that the loop pushes, from `p` on, with the literal text that has been read. -/
def formatParts (args : List Str) (segment : Str) : Str → Option (List Str)
  | [] => some (pushed segment)
  | '%' :: '%' :: s => (formatParts args [] s).map fun parts => pushed segment ++ ['%'] :: parts
  | '%' :: c :: s =>
      if c.isDigit then
        have : (s.dropWhile Char.isDigit).length ≤ s.length :=
          (List.dropWhile_suffix Char.isDigit).length_le
        (accumulate (digitValue c) (s.takeWhile Char.isDigit)).bind fun number =>
          let index : Int := number - 1
          if 0 ≤ index ∧ index < args.length then
            (formatParts args [] (s.dropWhile Char.isDigit)).map fun parts =>
              pushed segment ++ args.getD index.toNat [] :: parts
          else
            formatParts args (segment ++ '%' :: c :: s.takeWhile Char.isDigit)
              (s.dropWhile Char.isDigit)
      else formatParts args (segment ++ ['%']) (c :: s)
  | c :: s => formatParts args (segment ++ [c]) s
termination_by s => s.length

/-- `str::format`. -/
def format (fmt : Str) (args : List Str) : Option Str := (formatParts args [] fmt).map List.flatten

/-! ## What it is for -/

/-- A piece of a format: a character, `%%`, or a placeholder with its digits. -/
inductive FormatToken where
  | char (c : Char)
  | percent
  | placeholder (digits : Str)

/-- The number that digits stand for. -/
def decimalValue (digits : Str) : Nat := digits.foldl (fun n c => n * 10 + digitValue c) 0

/-- What replaces a piece. A placeholder without an argument is kept. -/
def FormatToken.text (args : List Str) : FormatToken → Str
  | .char c => [c]
  | .percent => ['%']
  | .placeholder digits =>
      if 1 ≤ decimalValue digits ∧ decimalValue digits ≤ args.length then
        args.getD (decimalValue digits - 1) []
      else '%' :: digits

/-- The pieces of a format, from left to right. -/
inductive Tokens : Str → List FormatToken → Prop where
  | nil : Tokens [] []
  | percent {s : Str} {ts : List FormatToken} :
      Tokens s ts → Tokens ('%' :: '%' :: s) (.percent :: ts)
  | placeholder {digits s : Str} {ts : List FormatToken} :
      digits ≠ [] → (∀ c ∈ digits, c.isDigit = true) → (∀ c ∈ s.head?, c.isDigit = false) →
      Tokens s ts → Tokens ('%' :: (digits ++ s)) (.placeholder digits :: ts)
  | char {c : Char} {s : Str} {ts : List FormatToken} :
      (c = '%' → ∀ c' ∈ s.head?, c' ≠ '%' ∧ c'.isDigit = false) →
      Tokens s ts → Tokens (c :: s) (.char c :: ts)

/-- The result is the format with each piece replaced. -/
def Formats (fmt : Str) (args : List Str) : Prop :=
  ∀ ts, Tokens fmt ts → format fmt args = some (ts.flatMap (FormatToken.text args))

/-! ## The number of a placeholder -/

theorem le_foldl_digits (n : Nat) (digits : Str) :
    n ≤ digits.foldl (fun n c => n * 10 + digitValue c) n := by
  induction digits generalizing n with
  | nil => exact Nat.le_refl n
  | cons c digits ih => exact Nat.le_trans (by omega) (ih (n * 10 + digitValue c))

theorem accumulate_eq {n : Nat} (hn : n < 2 ^ 31) (digits : Str) :
    accumulate n digits =
      if digits.foldl (fun n c => n * 10 + digitValue c) n < 2 ^ 31 then
        some (digits.foldl (fun n c => n * 10 + digitValue c) n)
      else none := by
  induction digits generalizing n with
  | nil => rw [accumulate, List.foldl_nil, if_pos hn]
  | cons c digits ih =>
      rw [accumulate, List.foldl_cons]
      by_cases hlt : n * 10 + digitValue c < 2 ^ 31
      · rw [if_pos hlt, ih hlt]
      · have hle := le_foldl_digits (n * 10 + digitValue c) digits
        rw [if_neg hlt, if_neg (by omega)]

theorem digitValue_lt {c : Char} (h : c.isDigit = true) : digitValue c < 2 ^ 31 := by
  have hle : c.toNat ≤ '9'.toNat := by
    simp only [Char.isDigit, Bool.and_eq_true, decide_eq_true_eq] at h
    exact h.2
  rw [digitValue]
  exact Nat.lt_of_le_of_lt (Nat.le_trans (Nat.sub_le _ _) hle) (by decide)

theorem accumulate_digits {c : Char} (h : c.isDigit = true) (digits : Str) :
    accumulate (digitValue c) digits =
      if decimalValue (c :: digits) < 2 ^ 31 then some (decimalValue (c :: digits)) else none := by
  have hvalue : decimalValue (c :: digits) =
      digits.foldl (fun n c => n * 10 + digitValue c) (digitValue c) := by
    rw [decimalValue, List.foldl_cons, Nat.zero_mul, Nat.zero_add]
  rw [hvalue]
  exact accumulate_eq (digitValue_lt h) digits

/-! ## The loop at a piece -/

section Loop

variable {args : List Str} {segment s : Str} {c : Char}

theorem formatParts_percent :
    formatParts args segment ('%' :: '%' :: s) =
      (formatParts args [] s).map fun parts => pushed segment ++ ['%'] :: parts := by
  rw [formatParts]

theorem formatParts_char (h : c = '%' → ∀ c' ∈ s.head?, c' ≠ '%' ∧ c'.isDigit = false) :
    formatParts args segment (c :: s) = formatParts args (segment ++ [c]) s := by
  by_cases hc : c = '%'
  · subst hc
    cases s with
    | nil =>
        have hnil (segment : Str) : formatParts args segment [] = some (pushed segment) := by
          rw [formatParts]
        rw [hnil, formatParts, hnil]
        · simp
        · simp
    | cons c' s =>
        obtain ⟨hpercent, hdigit⟩ := h rfl c' rfl
        rw [formatParts]
        · rw [hdigit, if_neg Bool.false_ne_true]
        · exact fun heq => hpercent heq
  · rw [formatParts]
    · exact fun s' heq => absurd heq hc
    · exact fun c' s' heq => absurd heq hc

theorem formatParts_placeholder {digits : Str} (hne : digits ≠ [])
    (hdigits : ∀ c ∈ digits, c.isDigit = true) (hmax : ∀ c ∈ s.head?, c.isDigit = false) :
    formatParts args segment ('%' :: (digits ++ s)) =
      if decimalValue digits < 2 ^ 31 then
        if 1 ≤ decimalValue digits ∧ decimalValue digits ≤ args.length then
          (formatParts args [] s).map fun parts =>
            pushed segment ++ args.getD (decimalValue digits - 1) [] :: parts
        else formatParts args (segment ++ '%' :: digits) s
      else none := by
  obtain ⟨c, digits, rfl⟩ := List.exists_cons_of_ne_nil hne
  have hc : c.isDigit = true := hdigits c List.mem_cons_self
  have hrun : ∀ c ∈ digits, c.isDigit = true := fun c hc => hdigits c (List.mem_cons_of_mem _ hc)
  have hnone : s.takeWhile Char.isDigit = [] ∧ s.dropWhile Char.isDigit = s := by
    cases s with
    | nil => exact ⟨rfl, rfl⟩
    | cons c' s =>
        have hc' : ¬ c'.isDigit = true := Bool.eq_false_iff.mp (hmax c' rfl)
        exact ⟨List.takeWhile_cons_of_neg hc', List.dropWhile_cons_of_neg hc'⟩
  have htake : (digits ++ s).takeWhile Char.isDigit = digits := by
    rw [List.takeWhile_append_of_pos hrun, hnone.1, List.append_nil]
  have hdrop : (digits ++ s).dropWhile Char.isDigit = s := by
    rw [List.dropWhile_append_of_pos hrun, hnone.2]
  rw [List.cons_append, formatParts]
  · rw [if_pos hc, htake, hdrop, accumulate_digits hc]
    by_cases hlt : decimalValue (c :: digits) < 2 ^ 31
    · rw [if_pos hlt, if_pos hlt, Option.bind_some]
      have hiff : (0 ≤ (decimalValue (c :: digits) : Int) - 1 ∧
          (decimalValue (c :: digits) : Int) - 1 < args.length) ↔
            1 ≤ decimalValue (c :: digits) ∧ decimalValue (c :: digits) ≤ args.length := by omega
      have hindex : ((decimalValue (c :: digits) : Int) - 1).toNat =
        decimalValue (c :: digits) - 1 := by omega
      simp only [hiff, hindex]
    · rw [if_neg hlt, if_neg hlt, Option.bind_none]
  · intro heq
    subst heq
    exact absurd hc (by decide)

end Loop

/-! ## Where a format is replaced as it should be -/

variable {fmt segment : Str} {args : List Str} {ts : List FormatToken}

/-- The numbers of the placeholders fit into an `int`. -/
def NumbersFit (ts : List FormatToken) : Prop :=
  ∀ digits, .placeholder digits ∈ ts → decimalValue digits < 2 ^ 31

theorem flatten_pushed (segment : Str) : (pushed segment).flatten = segment := by
  rw [pushed]
  split
  next h => exact h.symm
  next => exact List.flatten_singleton

theorem formatParts_of_fit (h : Tokens fmt ts) (hfit : NumbersFit ts) (segment : Str) :
    (formatParts args segment fmt).map List.flatten =
      some (segment ++ ts.flatMap (FormatToken.text args)) := by
  induction h generalizing segment with
  | nil => rw [formatParts, Option.map_some, flatten_pushed, List.flatMap_nil, List.append_nil]
  | percent _ ih =>
      have hrest := ih (fun digits hd => hfit digits (List.mem_cons_of_mem _ hd)) []
      obtain ⟨parts, hparts, heq⟩ := Option.map_eq_some_iff.mp hrest
      rw [formatParts_percent, hparts, Option.map_some, Option.map_some, List.flatten_append,
        flatten_pushed, List.flatten_cons, heq]
      rfl
  | @placeholder digits s ts hne hdigits hmax _ ih =>
      have hlt := hfit digits List.mem_cons_self
      have hrest := ih fun digits hd => hfit digits (List.mem_cons_of_mem _ hd)
      rw [formatParts_placeholder hne hdigits hmax, if_pos hlt, List.flatMap_cons, FormatToken.text]
      split
      next =>
        obtain ⟨parts, hparts, heq⟩ := Option.map_eq_some_iff.mp (hrest [])
        rw [hparts, Option.map_some, Option.map_some, List.flatten_append, flatten_pushed,
          List.flatten_cons, heq]
        rfl
      next => rw [hrest, List.append_assoc]
  | char hc _ ih =>
      have hrest := ih fun digits hd => hfit digits (List.mem_cons_of_mem _ hd)
      rw [formatParts_char hc, hrest, List.append_assoc]
      rfl

theorem formatParts_of_not_fit (h : Tokens fmt ts) (hfit : ¬ NumbersFit ts) (segment : Str) :
    formatParts args segment fmt = none := by
  induction h generalizing segment with
  | nil => exact absurd (fun digits hd => absurd hd List.not_mem_nil) hfit
  | percent _ ih =>
      have hrest : ¬ NumbersFit _ := fun hrest => hfit fun digits hd =>
        hrest digits (List.mem_of_ne_of_mem (by simp) hd)
      rw [formatParts_percent, ih hrest, Option.map_none]
  | @placeholder digits s ts hne hdigits hmax _ ih =>
      rw [formatParts_placeholder hne hdigits hmax]
      split
      next hlt =>
        have hrest : ¬ NumbersFit ts := fun hrest => hfit fun digits' hd => by
          rcases List.mem_cons.mp hd with heq | hd
          · cases heq
            exact hlt
          · exact hrest digits' hd
        split
        next => rw [ih hrest, Option.map_none]
        next => exact ih hrest _
      next => rfl
  | char hc _ ih =>
      have hrest : ¬ NumbersFit _ := fun hrest => hfit fun digits hd =>
        hrest digits (List.mem_of_ne_of_mem (by simp) hd)
      rw [formatParts_char hc, ih hrest]

/-- A digit behind a percent sign begins a placeholder, which takes all digits there are. -/
theorem Tokens.placeholder_of_isDigit {c : Char} {s : Str} {ts : List FormatToken}
    (hc : c.isDigit = true) (hts : Tokens ((c :: s).dropWhile Char.isDigit) ts) :
    Tokens ('%' :: c :: s) (.placeholder ((c :: s).takeWhile Char.isDigit) :: ts) := by
  have hne : (c :: s).takeWhile Char.isDigit ≠ [] := by
    rw [List.takeWhile_cons_of_pos hc]
    exact List.cons_ne_nil _ _
  have hrest : ∀ d ∈ ((c :: s).dropWhile Char.isDigit).head?, d.isDigit = false := by
    intro d hd
    have hhead := List.head?_dropWhile_not Char.isDigit (c :: s)
    rw [Option.mem_def.mp hd] at hhead
    simpa using hhead
  have htokens := Tokens.placeholder hne (fun d hd => List.mem_takeWhile_imp hd) hrest hts
  rwa [List.takeWhile_append_dropWhile] at htokens

/-- Every format is made of pieces. -/
theorem exists_tokens (fmt : Str) : ∃ ts, Tokens fmt ts := by
  induction hn : fmt.length using Nat.strong_induction_on generalizing fmt with
  | _ n ih =>
      have hshorter {s : Str} (h : s.length < fmt.length) : ∃ ts, Tokens s ts :=
        ih _ (hn ▸ h) s rfl
      cases fmt with
      | nil => exact ⟨[], .nil⟩
      | cons c s =>
          obtain ⟨ts, hts⟩ := hshorter (Nat.lt_succ_self s.length)
          by_cases hc : c = '%' ∧ s ≠ []
          · obtain ⟨rfl, hne⟩ := hc
            obtain ⟨c', s', rfl⟩ := List.exists_cons_of_ne_nil hne
            by_cases hpercent : c' = '%'
            · subst hpercent
              have hlt : s'.length < ('%' :: '%' :: s').length :=
                Nat.lt_add_of_pos_right Nat.two_pos
              obtain ⟨ts, hts⟩ := hshorter hlt
              exact ⟨_, .percent hts⟩
            · by_cases hdigit : c'.isDigit = true
              · have hle := (List.dropWhile_suffix (l := c' :: s') Char.isDigit).length_le
                obtain ⟨ts, hts⟩ := hshorter (Nat.lt_succ_of_le hle)
                exact ⟨_, hts.placeholder_of_isDigit hdigit⟩
              · refine ⟨_, .char (fun _ d hd => ?_) hts⟩
                cases hd
                exact ⟨hpercent, Bool.eq_false_iff.mpr hdigit⟩
          · refine ⟨_, .char (fun heq d hd => absurd ⟨heq, ?_⟩ hc) hts⟩
            rintro rfl
            cases hd

/-- A format is replaced as it should be exactly if the number of every placeholder fits into
an `int`. -/
theorem formats_iff : Formats fmt args ↔ ∀ ts, Tokens fmt ts → NumbersFit ts := by
  constructor
  · intro h ts hts
    by_contra hfit
    have hresult := h ts hts
    rw [format, formatParts_of_not_fit hts hfit, Option.map_none] at hresult
    cases hresult
  · intro h ts hts
    rw [format, formatParts_of_fit hts (h ts hts), List.nil_append]

/-- A placeholder whose number comes to 1 in 32 bits. -/
def wrappedNumber : Str := "4294967297".toList

theorem not_formats : ¬ Formats ('%' :: wrappedNumber) ["a".toList] := by
  have htokens : Tokens ('%' :: (wrappedNumber ++ [])) [.placeholder wrappedNumber] :=
    .placeholder (List.cons_ne_nil _ _) (List.all_eq_true.mp rfl) (by simp) .nil
  rw [List.append_nil] at htokens
  have hfit : ¬ NumbersFit [.placeholder wrappedNumber] := fun hfit =>
    absurd (hfit wrappedNumber List.mem_cons_self) (by decide)
  intro h
  have hresult := h _ htokens
  rw [format, formatParts_of_not_fit htokens hfit, Option.map_none] at hresult
  cases hresult

end Lorelei.Support
