import Lorelei.Variadic.FormatScan

/-!
# Where the walk over a format stops

The walkers move a cursor over the bytes of a format and look at its terminator like at
any other byte. Here the terminator is part of the text, behind it there is nothing, and
looking there is `none`.

In front of a terminator, every field leaves the cursor where the walk over the text alone
does (`numberField_terminated`, ...). The specifier is the one that steps over the
terminator: its default case copies whatever character it meets.
-/

namespace Lorelei.Variadic

/-- The bytes from the cursor on. -/
abbrev Cursor := List Char

/-- `*format`; `none` behind the last byte. -/
def Cursor.read (format : Cursor) : Option Char := format.head?

/-- The flags loop. -/
def flagsField : Cursor → Option Cursor
  | [] => none
  | ch :: format => if isFlag ch then flagsField format else some (ch :: format)

/-- The loop of `_atoi`. -/
def atoiField : Cursor → Option Cursor
  | [] => none
  | ch :: format => if isDigit ch then atoiField format else some (ch :: format)

/-- A number or a `*`, as in the width and the precision field. -/
def numberField (format : Cursor) : Option Cursor :=
  format.read.bind fun ch =>
    if isDigit ch then atoiField format
    else if ch = '*' then some format.tail
    else some format

/-- The precision field. -/
def precisionField (format : Cursor) : Option Cursor :=
  format.read.bind fun ch => if ch = '.' then numberField format.tail else some format

/-- The second character of `ll` and `hh`. -/
def secondField (first : Char) (format : Cursor) : Option Cursor :=
  format.read.bind fun ch => if ch = first then some format.tail else some format

/-- The length field. -/
def lengthField (format : Cursor) : Option Cursor :=
  format.read.bind fun ch =>
    if ch = 'l' then secondField 'l' format.tail
    else if ch = 'h' then secondField 'h' format.tail
    else if ch = 't' ∨ ch = 'j' ∨ ch = 'z' then some format.tail
    else some format

/-- The specifier: every case, the default case too, goes on behind it. -/
def specifierField (format : Cursor) : Option Cursor :=
  format.read.map fun _ => format.tail

/-- What follows a `%`. -/
def directiveField (format : Cursor) : Option Cursor :=
  (flagsField format).bind fun format =>
    (numberField format).bind fun format =>
      (precisionField format).bind fun format => (lengthField format).bind specifierField

/-- The loop over the format, for at most so many turns: where it ends. -/
def walkBytes : Nat → Cursor → Option Cursor
  | 0, format => some format
  | turns + 1, format =>
      format.read.bind fun ch =>
        if ch = '\x00' then some format
        else if ch = '%' then (directiveField format.tail).bind (walkBytes turns)
        else walkBytes turns format.tail

/-- The loop of `mp_vsnprintf`. -/
def mpVsnprintfBytes (format : Cursor) : Option Cursor := walkBytes format.length format

/-- The loop of `mp_vsnprintf_scanf`: the macros it is compiled with move no cursor either. -/
def mpVsnprintfScanfBytes (format : Cursor) : Option Cursor := walkBytes format.length format

/-- Where the walk of `VariadicAdaptor::extract` ends; `none` if it has read behind the bytes. -/
def extractBytes : FormatStyle → Cursor → Option Cursor
  | .printF => mpVsnprintfBytes
  | .scanF => mpVsnprintfScanfBytes

/-! ## The fields in front of a terminator -/

/-- A text and its terminator. -/
def terminated (text : List Char) : Cursor := text ++ ['\x00']

@[simp] theorem terminated_nil : terminated [] = ['\x00'] := rfl

@[simp] theorem terminated_cons (ch : Char) (text : List Char) :
    terminated (ch :: text) = ch :: terminated text := rfl

@[simp] theorem read_cons (ch : Char) (format : Cursor) :
    Cursor.read (ch :: format) = some ch := rfl

theorem flagsField_terminated (text : List Char) :
    flagsField (terminated text) = some (terminated (skipFlags text)) := by
  induction text with
  | nil => rfl
  | cons ch text ih =>
      rw [terminated_cons, flagsField, skipFlags, List.dropWhile_cons]
      split
      · exact ih
      · rfl

theorem atoiField_terminated (text : List Char) :
    atoiField (terminated text) = some (terminated (skipAtoi text)) := by
  induction text with
  | nil => rfl
  | cons ch text ih =>
      rw [terminated_cons, atoiField, skipAtoi, List.dropWhile_cons]
      split
      · exact ih
      · rfl

theorem numberField_terminated (text : List Char) :
    numberField (terminated text) = some (terminated (numberReaders text).2) := by
  rw [numberReaders]
  cases text with
  | nil => rfl
  | cons ch text =>
      rw [numberField, terminated_cons, read_cons, Option.bind_some, peek, List.headD_cons]
      split
      · exact atoiField_terminated (ch :: text)
      · split <;> rfl

theorem precisionField_terminated (text : List Char) :
    precisionField (terminated text) = some (terminated (precisionReaders text).2) := by
  rw [precisionReaders]
  cases text with
  | nil => rfl
  | cons ch text =>
      rw [precisionField, terminated_cons, read_cons, Option.bind_some, peek, List.headD_cons]
      split
      · exact numberField_terminated text
      · rfl

theorem secondField_terminated_of_ne {first : Char} {text : List Char} (hfirst : first ≠ '\x00')
    (h : ∀ rest, text ≠ first :: rest) :
    secondField first (terminated text) = some (terminated text) := by
  cases text with
  | nil => exact if_neg hfirst.symm
  | cons ch text => exact if_neg fun hch => h text (by rw [hch])

theorem lengthField_terminated (text : List Char) :
    lengthField (terminated text) = some (terminated (walkLength text).2) := by
  cases text using walkLength.fun_cases with
  | case1 rest => rfl
  | case2 rest hne =>
      have hrest : (walkLength ('l' :: rest)).2 = rest := by rw [walkLength]; exact hne
      rw [hrest]
      exact secondField_terminated_of_ne (by decide) fun rest' h => hne rest' h
  | case3 rest => rfl
  | case4 rest hne =>
      have hrest : (walkLength ('h' :: rest)).2 = rest := by rw [walkLength]; exact hne
      rw [hrest]
      exact secondField_terminated_of_ne (by decide) fun rest' h => hne rest' h
  | case5 rest => rfl
  | case6 rest => rfl
  | case7 rest => rfl
  | case8 text hll hl hhh hh ht hj hz =>
      have hrest : (walkLength text).2 = text := by
        rw [walkLength] <;> assumption
      rw [hrest]
      cases text with
      | nil => rfl
      | cons ch text =>
          have hl' : ch ≠ 'l' := fun h => hl text (by rw [h])
          have hh' : ch ≠ 'h' := fun h => hh text (by rw [h])
          have ht' : ch ≠ 't' := fun h => ht text (by rw [h])
          have hj' : ch ≠ 'j' := fun h => hj text (by rw [h])
          have hz' : ch ≠ 'z' := fun h => hz text (by rw [h])
          simp [lengthField, hl', hh', ht', hj', hz']

/-- Behind a specification, or behind the terminator where the text ends in one. -/
theorem directiveField_terminated (text : List Char) :
    directiveField (terminated text) =
      some (((directiveReaders text).map fun r => terminated r.2).getD []) := by
  rw [directiveField, flagsField_terminated, Option.bind_some, numberField_terminated,
    Option.bind_some, precisionField_terminated, Option.bind_some, lengthField_terminated,
    Option.bind_some, directiveReaders]
  simp only [consReaders, endReaders]
  obtain ⟨flags, rest⟩ := walkLength (precisionReaders (numberReaders (skipFlags text)).2).2
  cases rest <;> rfl

/-! ## The walk -/

/-- The walk ends on the terminator, or reads behind it. -/
theorem walkBytes_terminated (turns : Nat) (text : List Char) (hturns : text.length < turns)
    (h : '\x00' ∉ text) :
    walkBytes turns (terminated text) = (formatReaders text).map fun _ => ['\x00'] := by
  induction turns generalizing text with
  | zero => exact absurd hturns (Nat.not_lt_zero _)
  | succ turns ih =>
      cases text with
      | nil =>
          rw [formatReaders]
          rfl
      | cons ch text =>
          obtain ⟨hch, htext⟩ := not_or.mp (mt List.mem_cons.mpr h)
          have hlen : text.length < turns := Nat.lt_of_succ_lt_succ hturns
          rw [walkBytes, terminated_cons, read_cons, Option.bind_some, if_neg (Ne.symm hch),
            List.tail_cons]
          split
          next hpercent =>
            subst hpercent
            rw [directiveField_terminated, Option.bind_some, formatReaders_percent]
            cases hd : directiveReaders text with
            | none =>
                cases turns with
                | zero => exact absurd hlen (Nat.not_lt_zero _)
                | succ turns => rfl
            | some r =>
                obtain ⟨ch, hsuffix⟩ := directiveReaders_suffix hd
                have hshorter := length_directiveReaders hd
                have hrest : '\x00' ∉ r.2 := fun hmem =>
                  htext (hsuffix.subset (List.mem_cons_of_mem ch hmem))
                rw [Option.map_some, Option.getD_some, ih r.2 (by omega) hrest, Option.bind_some,
                  Option.map_map]
                rfl
          next hne => rw [formatReaders_of_ne hne, ih text hlen htext]

theorem extractBytes_terminated (style : FormatStyle) {text : List Char} (h : '\x00' ∉ text) :
    extractBytes style (terminated text) = (formatReaders text).map fun _ => ['\x00'] := by
  have hlen : text.length < (terminated text).length := by simp [terminated]
  cases style with
  | printF => exact walkBytes_terminated _ text hlen h
  | scanF => exact walkBytes_terminated _ text hlen h

/-- The walk stops on the terminator exactly if the format does not end inside a
specification. -/
theorem stops_at_terminator_iff (style : FormatStyle) {text : List Char} (h : '\x00' ∉ text) :
    extractBytes style (terminated text) = some ['\x00'] ↔ FormatState.after none text = none := by
  have hscan := formatReaders_eq_scan text
  rw [extractBytes_terminated style h]
  split at hscan
  next hafter =>
    obtain ⟨rs, hrs, -⟩ := Option.map_eq_some_iff.mp hscan
    rw [hrs]
    exact iff_of_true rfl hafter
  next hafter =>
    rw [Option.map_eq_none_iff.mp hscan]
    exact iff_of_false (by exact nofun) hafter

theorem stops_at_terminator_decimal :
    extractBytes .printF (terminated "%d".toList) = some ['\x00'] ↔
      FormatState.after none "%d".toList = none :=
  stops_at_terminator_iff .printF (by decide)

/-- A format that is a `%` alone takes the walk behind its terminator. -/
theorem not_stops_at_terminator :
    ∃ text : List Char, '\x00' ∉ text ∧ extractBytes .printF (terminated text) = none :=
  ⟨['%'], by decide, by decide⟩

end Lorelei.Variadic
