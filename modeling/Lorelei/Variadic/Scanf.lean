import Mathlib.Algebra.Ring.Nat
import Lorelei.Variadic.FormatScan

/-!
# What the walker records of a scanf format

`mp_vsnprintf_scanf` is the printf walker with every argument read as a pointer, so a scanf
format is walked by the rules of printf. A `*` is taken for a width and its argument is
read; `n`, `a`, `A`, a scanset and whatever follows an `L` are copied like text, and a
number behind a `*` ends the specification.

An `s` also makes the walker look for the end of the string it has read the address of
(`walkSpecifierIn`), so that the walk needs a terminator in the memory behind it.
-/

namespace Lorelei.Variadic

/-! ## The walk, with the strings it looks at -/

/-- The bytes that can be read. -/
abbrev CharMemory := BitVec 64 → Option (BitVec 8)

/-- The length of the string at an address, of at most so many steps; `none` where no
terminator is reached. -/
def strnlen (mem : CharMemory) : Nat → BitVec 64 → Option Nat
  | 0, _ => none
  | maxsize + 1, p =>
      (mem p).bind fun ch => if ch = 0 then some 0 else (strnlen mem maxsize (p + 1)).map (· + 1)

/-- Whether a string stands at an address. -/
def HasString (mem : CharMemory) (p : BitVec 64) : Bool := (strnlen mem (2 ^ 64) p).isSome

/-- The specifier. The `s` case goes over the characters of its argument, from
`_strnlen_s` on and without a limit where there is no precision. -/
def walkSpecifierIn (mem : CharMemory) (flags : LengthFlags) (format : List Char)
    (ap : List Value) : Option Walk :=
  match format with
  | 's' :: format =>
      (vaArg .pointer ap).bind fun (p, ap) =>
        if HasString mem (p.bits.setWidth 64) then
          some ⟨[Reader.string.box p.bits], format, ap⟩
        else none
  | format => walkSpecifier scanfReaders flags format ap

/-- What follows a `%`. -/
def walkDirectiveIn (mem : CharMemory) (format : List Char) (ap : List Value) : Option Walk := do
  let w₁ ← walkWidth scanfReaders (skipFlags format) ap
  let w₂ ← walkPrecision scanfReaders w₁.format w₁.ap
  let (flags, format) := walkLength w₂.format
  let w₃ ← walkSpecifierIn mem flags format w₂.ap
  return ⟨w₁.entries ++ w₂.entries ++ w₃.entries, w₃.format, w₃.ap⟩

/-- The loop over the format, for at most so many turns. -/
def walkFormatIn (mem : CharMemory) : Nat → List Char → List Value → Option (List CVargEntry)
  | _, [], _ => some []
  | 0, _ :: _, _ => none
  | turns + 1, '%' :: format, ap => do
      let w ← walkDirectiveIn mem format ap
      let entries ← walkFormatIn mem turns w.format w.ap
      return w.entries ++ entries
  | turns + 1, _ :: format, ap => walkFormatIn mem turns format ap

/-- `mp_vsnprintf_scanf`: the entries it writes. -/
def mpVsnprintfScanf (mem : CharMemory) (format : List Char) (ap : List Value) :
    Option (List CVargEntry) :=
  (walkFormatIn mem format.length format ap).map (· ++ [terminator])

/-- `extractScanFArgs`. -/
def extractScanFArgs (mem : CharMemory) (format : List Char) (ap : List Value) :
    Option (Nat × List CVargEntry) := do
  let out ← mpVsnprintfScanf mem format ap
  let count ← sentinelIndex out
  return (count, out)

/-! ## What the walk reads -/

/-- One reader macro, and the string it may lead to. -/
def readIn (mem : CharMemory) (r : Reader) (ap : List Value) :
    Option (CVargEntry × List Value) :=
  (vaArg .pointer ap).bind fun (p, ap) =>
    if r = .string → HasString mem (p.bits.setWidth 64) then
      some ((scanfReaders r).box p.bits, ap)
    else none

/-- Read one argument after the other. -/
def readAllIn (mem : CharMemory) : List Reader → List Value → Option (List CVargEntry × List Value)
  | [], ap => some ([], ap)
  | r :: rs, ap =>
      (readIn mem r ap).bind fun (e, ap) =>
        (readAllIn mem rs ap).map fun (es, ap) => (e :: es, ap)

section Read

variable (mem : CharMemory)

theorem readAllIn_append (rs rs' : List Reader) (ap : List Value) :
    readAllIn mem (rs ++ rs') ap = (readAllIn mem rs ap).bind fun (es, ap) =>
      (readAllIn mem rs' ap).map fun (es', ap) => (es ++ es', ap) := by
  induction rs generalizing ap with
  | nil => simp [readAllIn]
  | cons r rs ih =>
      rw [List.cons_append, readAllIn, readAllIn]
      cases readIn mem r ap with
      | none => rfl
      | some w =>
          obtain ⟨e, ap⟩ := w
          simp only [Option.bind_some, ih]
          cases readAllIn mem rs ap with
          | none => rfl
          | some w' =>
              obtain ⟨es, ap⟩ := w'
              simp only [Option.map_some, Option.bind_some]
              cases readAllIn mem rs' ap <;> rfl

theorem scanfReaders_type (r : Reader) : (scanfReaders r).type = .pointer := by
  cases r <;> rfl

theorem readIn_of_ne {r : Reader} (h : r ≠ .string) (ap : List Value) :
    readIn mem r ap =
      (vaArg (scanfReaders r).type ap).map fun (p, ap) => ((scanfReaders r).box p.bits, ap) := by
  rw [readIn, scanfReaders_type]
  cases vaArg .pointer ap with
  | none => rfl
  | some w => exact if_pos fun hr => absurd hr h

/-- Without an `s` the memory is not looked at. -/
theorem readAllIn_of_not_mem {rs : List Reader} (h : .string ∉ rs) (ap : List Value) :
    readAllIn mem rs ap = readAll scanfReaders rs ap := by
  induction rs generalizing ap with
  | nil => rfl
  | cons r rs ih =>
      obtain ⟨hr, hrs⟩ := not_or.mp (mt List.mem_cons.mpr h)
      rw [readAllIn, readIn_of_ne mem (Ne.symm hr), readAll]
      cases vaArg (scanfReaders r).type ap with
      | none => rfl
      | some w =>
          simp only [Option.map_some, Option.bind_some, Option.bind_eq_bind, ih hrs]
          cases readAll scanfReaders rs w.2 <;> rfl

theorem string_not_mem_numberReaders (format : List Char) :
    Reader.string ∉ (numberReaders format).1 := by
  rw [numberReaders]
  split
  · exact List.not_mem_nil
  · split
    · intro h
      cases List.mem_singleton.mp h
    · exact List.not_mem_nil

theorem string_not_mem_precisionReaders (format : List Char) :
    Reader.string ∉ (precisionReaders format).1 := by
  rw [precisionReaders]
  split
  · exact string_not_mem_numberReaders _
  · exact List.not_mem_nil

theorem walkSpecifierIn_cons (flags : LengthFlags) (ch : Char) (format : List Char)
    (ap : List Value) : walkSpecifierIn mem flags (ch :: format) ap =
      (readAllIn mem (specifierReaders flags ch) ap).map fun (es, ap) => ⟨es, format, ap⟩ := by
  by_cases hs : ch = 's'
  · subst hs
    show ((vaArg .pointer ap).bind fun w => _) = (readAllIn mem [.string] ap).map _
    rw [readAllIn, readIn]
    cases vaArg .pointer ap with
    | none => rfl
    | some w =>
        simp only [Option.bind_some, forall_const]
        split <;> rfl
  · have hnot : Reader.string ∉ specifierReaders flags ch := by
      rw [specifierReaders]
      split_ifs <;> simp
    rw [readAllIn_of_not_mem mem hnot, ← walkSpecifier_cons, walkSpecifierIn]
    rintro format' heq
    exact hs (List.cons.inj heq).1

theorem walkSpecifierIn_length (format : List Char) (ap : List Value) :
    walkSpecifierIn mem (walkLength format).1 (walkLength format).2 ap =
      (endReaders format).bind fun r =>
        (readAllIn mem r.1 ap).map fun (es, ap) => ⟨es, r.2, ap⟩ := by
  rw [endReaders]
  obtain ⟨flags, rest⟩ := walkLength format
  cases rest with
  | nil => rfl
  | cons ch rest => exact walkSpecifierIn_cons ..

theorem readAllIn_inOrder : ReadsInOrder (readAllIn mem) :=
  ⟨fun _ => rfl, readAllIn_append mem⟩

theorem walkDirectiveIn_eq (format : List Char) (ap : List Value) :
    walkDirectiveIn mem format ap = (directiveReaders format).bind fun r =>
      (readAllIn mem r.1 ap).map fun (es, ap) => ⟨es, r.2, ap⟩ := by
  have hwidth : ∀ format ap, walkNumber scanfReaders format ap =
      (readAllIn mem (numberReaders format).1 ap).map
        fun (es, ap) => ⟨es, (numberReaders format).2, ap⟩ := by
    intro format ap
    rw [readAllIn_of_not_mem mem (string_not_mem_numberReaders format), walkNumber_eq]
  have hprecision : ∀ format ap, walkPrecision scanfReaders format ap =
      (readAllIn mem (precisionReaders format).1 ap).map
        fun (es, ap) => ⟨es, (precisionReaders format).2, ap⟩ := by
    intro format ap
    rw [readAllIn_of_not_mem mem (string_not_mem_precisionReaders format), walkPrecision_eq]
  rw [← (readAllIn_inOrder mem).directive hwidth hprecision (walkSpecifierIn_length mem),
    walkDirectiveIn]
  simp only [walkWidth, Option.bind_eq_bind, Option.map_eq_bind]
  rfl

/-- The walk reads what the readers of the format read, in order. -/
theorem walkFormatIn_eq (format : List Char) (turns : Nat) (hturns : format.length ≤ turns)
    (ap : List Value) :
    walkFormatIn mem turns format ap =
      (formatReaders format).bind fun rs => (readAllIn mem rs ap).map Prod.fst := by
  refine (readAllIn_inOrder mem).format ?_ ?_ ?_ format turns hturns ap
  · intro turns ap
    cases turns <;> rfl
  · intro turns format ap
    rw [← walkDirectiveIn_eq]
    simp only [Option.map_eq_bind]
    rfl
  · intro turns ch format ap hch
    rw [walkFormatIn]
    exact fun heq => hch heq

end Read

/-! ## Formats one after the other -/

section Append

variable (more : List Char)

theorem dropWhile_append_of_ne_nil {p : Char → Bool} {format : List Char}
    (h : format.dropWhile p ≠ []) :
    (format ++ more).dropWhile p = format.dropWhile p ++ more := by
  rw [List.dropWhile_append, if_neg (by simpa using h)]

theorem numberReaders_append {format : List Char} (h : (numberReaders format).2 ≠ []) :
    numberReaders (format ++ more) =
      ((numberReaders format).1, (numberReaders format).2 ++ more) := by
  cases format with
  | nil => exact absurd rfl h
  | cons ch format =>
      rw [numberReaders] at h
      rw [numberReaders, numberReaders, List.cons_append, peek, peek, List.headD_cons,
        List.headD_cons]
      rw [peek, List.headD_cons] at h
      split
      next hch =>
        rw [if_pos hch] at h
        rw [skipAtoi, ← List.cons_append, dropWhile_append_of_ne_nil more h, skipAtoi]
      next => split <;> rfl

theorem precisionReaders_append {format : List Char} (h : (precisionReaders format).2 ≠ []) :
    precisionReaders (format ++ more) =
      ((precisionReaders format).1, (precisionReaders format).2 ++ more) := by
  cases format with
  | nil => exact absurd rfl h
  | cons ch format =>
      rw [precisionReaders] at h
      rw [precisionReaders, precisionReaders, List.cons_append, peek, peek, List.headD_cons,
        List.headD_cons]
      rw [peek, List.headD_cons] at h
      split
      next hch =>
        rw [if_pos hch] at h
        exact numberReaders_append more h
      next => rfl

/-- A character that does not follow still does not follow with more text behind. -/
theorem append_ne_cons {ch : Char} {rest : List Char} (hnil : rest ≠ [])
    (hne : ∀ rest', rest ≠ ch :: rest') (rest' : List Char) : rest ++ more ≠ ch :: rest' := by
  obtain ⟨first, rest, rfl⟩ := List.exists_cons_of_ne_nil hnil
  intro heq
  exact hne rest (by rw [(List.cons.inj heq).1])

theorem walkLength_append {format : List Char} (h : (walkLength format).2 ≠ []) :
    walkLength (format ++ more) = ((walkLength format).1, (walkLength format).2 ++ more) := by
  cases format using walkLength.fun_cases with
  | case1 rest => rfl
  | case2 rest hne =>
      have hrest : walkLength ('l' :: rest) = (⟨false, false, true, false⟩, rest) := by
        rw [walkLength]
        exact hne
      rw [hrest] at h ⊢
      rw [List.cons_append, walkLength]
      exact append_ne_cons more h hne
  | case3 rest => rfl
  | case4 rest hne =>
      have hrest : walkLength ('h' :: rest) = (⟨false, true, false, false⟩, rest) := by
        rw [walkLength]
        exact hne
      rw [hrest] at h ⊢
      rw [List.cons_append, walkLength]
      exact append_ne_cons more h hne
  | case5 rest => rfl
  | case6 rest => rfl
  | case7 rest => rfl
  | case8 format hll hl hhh hh ht hj hz =>
      have hrest : walkLength format = (⟨false, false, false, false⟩, format) := by
        rw [walkLength] <;> assumption
      rw [hrest] at h ⊢
      have hcons : ∀ ch, (∀ rest, format ≠ ch :: rest) → ∀ rest, format ++ more ≠ ch :: rest :=
        fun ch => append_ne_cons more h
      rw [walkLength]
      · exact fun rest => hcons _ hl _
      · exact hcons _ hl
      · exact fun rest => hcons _ hh _
      · exact hcons _ hh
      · exact hcons _ ht
      · exact hcons _ hj
      · exact hcons _ hz

theorem endReaders_append {format : List Char} {r : List Reader × List Char}
    (h : endReaders format = some r) : endReaders (format ++ more) = some (r.1, r.2 ++ more) := by
  rw [endReaders] at h
  split at h
  · cases h
  next flags ch rest heq =>
    obtain rfl := Option.some.inj h
    rw [endReaders, walkLength_append more (by rw [heq]; exact List.cons_ne_nil _ _), heq]
    rfl

/-- A specification is read alike whatever follows it. -/
theorem directiveReaders_append {format : List Char} {r : List Reader × List Char}
    (h : directiveReaders format = some r) :
    directiveReaders (format ++ more) = some (r.1, r.2 ++ more) := by
  obtain ⟨r₁, hr₁, rfl⟩ := Option.map_eq_some_iff.mp h
  obtain ⟨r₂, hr₂, rfl⟩ := Option.map_eq_some_iff.mp hr₁
  have hprecision : (precisionReaders (numberReaders (skipFlags format)).2).2 ≠ [] := by
    rintro hnil
    rw [hnil] at hr₂
    exact nomatch hr₂
  have hnumber : (numberReaders (skipFlags format)).2 ≠ [] := by
    rintro hnil
    rw [hnil] at hprecision
    exact hprecision rfl
  have hflags : skipFlags format ≠ [] := by
    rintro hnil
    rw [hnil] at hnumber
    exact hnumber rfl
  have hskip : skipFlags (format ++ more) = skipFlags format ++ more :=
    dropWhile_append_of_ne_nil more hflags
  rw [directiveReaders, consReaders, hskip, numberReaders_append more hnumber, consReaders,
    precisionReaders_append more hprecision, endReaders_append more hr₂]
  rfl

theorem formatReaders_append {format : List Char} {rs : List Reader}
    (h : formatReaders format = some rs) :
    formatReaders (format ++ more) = (formatReaders more).map (rs ++ ·) := by
  induction hn : format.length using Nat.strongRecOn generalizing format rs with
  | ind n ih =>
      cases format with
      | nil =>
          rw [formatReaders] at h
          obtain rfl := Option.some.inj h
          exact Option.map_id'.symm
      | cons ch format =>
          by_cases hch : ch = '%'
          · subst hch
            rw [formatReaders_percent] at h
            obtain ⟨r, hr, h⟩ := Option.bind_eq_some_iff.mp h
            obtain ⟨rs', hrs', rfl⟩ := Option.map_eq_some_iff.mp h
            have hlt := length_directiveReaders hr
            rw [List.cons_append, formatReaders_percent, directiveReaders_append more hr,
              Option.bind_some,
              ih r.2.length (by simp only [List.length_cons] at hn; omega) hrs' rfl]
            simp [Function.comp_def]
          · rw [formatReaders_of_ne hch] at h
            rw [List.cons_append, formatReaders_of_ne hch]
            exact ih format.length (by simp only [List.length_cons] at hn; omega) h rfl

end Append

/-! ## Scanf formats -/

/-- The characters between the brackets of a scanset; the first of them may be a `]`. -/
structure Scanset where
  negated : Bool
  first : Char
  rest : List Char
  first_ne : negated = false → first ≠ '^'
  rest_ne : ']' ∉ rest

/-- The text of a scanset behind its `[`. -/
def Scanset.render (set : Scanset) : List Char :=
  (if set.negated then ['^'] else []) ++ set.first :: (set.rest ++ [']'])

/-- A conversion with its length; the standard defines `L` for the floating ones, and no
length but `l` for a scanset. -/
inductive ScanConversion where
  | plain (conversion : Conversion) (length : Option Length)
      (allowed : conversion.allows length = true)
  | longDouble (conversion : Conversion) (h : conversion.argument none = .double)
  | scanset (long : Bool) (set : Scanset)

def ScanConversion.render : ScanConversion → List Char
  | .plain conversion length _ => renderLength length ++ [conversion.render]
  | .longDouble conversion _ => ['L', conversion.render]
  | .scanset long set => (if long then ['l'] else []) ++ '[' :: set.render

/-- `n`, which takes no asterisk and no width. -/
def ScanConversion.isCount : ScanConversion → Bool
  | .plain conversion _ _ => conversion = .n
  | .longDouble _ _ | .scanset _ _ => false

/-- A conversion specification. -/
structure ScanDirective where
  suppress : Bool
  width : Option (Fin 9 × List Digit)
  conversion : ScanConversion
  count : conversion.isCount = true → suppress = false ∧ width = none

/-- The text of a field width, which has no leading zero. -/
def renderScanWidth (width : Option (Fin 9 × List Digit)) : List Char :=
  (width.map fun (first, rest) => Digit.render first.succ :: rest.map Digit.render).getD []

/-- The text of a specification behind its `%`. -/
def ScanDirective.render (d : ScanDirective) : List Char :=
  (if d.suppress then ['*'] else []) ++ (renderScanWidth d.width ++ d.conversion.render)

/-- A piece of a format: an ordinary character (white space too), `%%`, or a
specification. -/
inductive ScanPiece where
  | literal (ch : Char) (h : ch ≠ '%')
  | percent
  | directive (d : ScanDirective)

def ScanPiece.render : ScanPiece → List Char
  | .literal ch _ => [ch]
  | .percent => ['%', '%']
  | .directive d => '%' :: d.render

def renderScan (format : List ScanPiece) : List Char := format.flatMap ScanPiece.render

/-- The pointers a piece consumes. -/
def ScanPiece.arguments : ScanPiece → Nat
  | .literal _ _ | .percent => 0
  | .directive d => if d.suppress then 0 else 1

/-! ## What the walker reads of them -/

/-- The readers of a conversion. -/
def ScanConversion.readers : ScanConversion → List Reader
  | .plain conversion length _ => (conversion.reader length).toList
  | .longDouble _ _ | .scanset _ _ => []

/-- The readers of the text of a scanset, which is walked like any text. -/
def ScanConversion.setReaders : ScanConversion → List Reader
  | .plain _ _ _ | .longDouble _ _ => []
  | .scanset _ set => (formatReaders set.render).getD []

/-- The `*` is read as a width; with a number behind it, the specification is over. -/
def ScanDirective.readers (d : ScanDirective) : List Reader :=
  (if d.suppress then [.int] else []) ++
    ((if d.suppress = true ∧ d.width.isSome = true then [] else d.conversion.readers) ++
      d.conversion.setReaders)

def ScanPiece.readers : ScanPiece → List Reader
  | .literal _ _ | .percent => []
  | .directive d => d.readers

/-- A character that ends what it stands in. -/
def Closes (ch : Char) : Prop := ∀ state : FormatState, state.next ch = none

theorem after_of_closes {ch : Char} (h : Closes ch) (text : List Char) (state : FormatState) :
    state.after (text ++ [ch]) = none := by
  rw [FormatState.after_append]
  exact h _

theorem closes_bracket : Closes ']' := by
  rintro (_ | field)
  · rfl
  · cases field <;> rfl

/-- A scanset ends outside of all specifications. -/
theorem formatReaders_scanset (set : Scanset) :
    ∃ rs, formatReaders set.render = some rs ∧ rs.length = FormatState.count none set.render := by
  have hafter : FormatState.after none set.render = none := by
    have htext : set.render =
        ((if set.negated then ['^'] else []) ++ set.first :: set.rest) ++ [']'] := by
      simp [Scanset.render]
    rw [htext]
    exact after_of_closes closes_bracket _ _
  have hscan := formatReaders_eq_scan set.render
  rw [if_pos hafter] at hscan
  exact Option.map_eq_some_iff.mp hscan

theorem formatReaders_literals {text : List Char} (h : '%' ∉ text) (more : List Char) :
    formatReaders (text ++ more) = formatReaders more := by
  induction text with
  | nil => rfl
  | cons ch text ih =>
      obtain ⟨hch, htext⟩ := not_or.mp (mt List.mem_cons.mpr h)
      rw [List.cons_append, formatReaders_of_ne (Ne.symm hch), ih htext]

theorem specifierReaders_render (length : Option Length) (conv : Conversion) :
    specifierReaders (LengthFlags.of length) conv.render = (conv.reader length).toList := by
  cases conv with
  | d | i | u | o | x | X =>
      cases length with
      | none => rfl
      | some length => cases length <;> rfl
  | _ => rfl

/-- A conversion, behind flags, width and precision. -/
theorem endReaders_render (conversion : ScanConversion) (more : List Char) :
    ∃ text, endReaders (conversion.render ++ more) = some (conversion.readers, text) ∧
      formatReaders text = (formatReaders more).map (conversion.setReaders ++ ·) := by
  cases conversion with
  | plain conversion length allowed =>
      refine ⟨more, ?_, Option.map_id'.symm⟩
      have htext : (ScanConversion.plain conversion length allowed).render ++ more =
          renderLength length ++ conversion.render :: more := by
        simp [ScanConversion.render]
      rw [htext, endReaders, walkLength_render]
      exact congrArg (fun rs => some (rs, more)) (specifierReaders_render length conversion)
  | longDouble conversion h =>
      refine ⟨conversion.render :: more, rfl, ?_⟩
      have hne : conversion.render ≠ '%' := by cases conversion <;> decide
      rw [formatReaders_of_ne hne]
      exact Option.map_id'.symm
  | scanset long set =>
      obtain ⟨rs, hrs, -⟩ := formatReaders_scanset set
      refine ⟨set.render ++ more, ?_, ?_⟩
      · cases long <;> rfl
      · rw [formatReaders_append more hrs, ScanConversion.setReaders, hrs, Option.getD_some]

/-- The first character of a conversion is no flag, digit, asterisk or dot. -/
theorem conversion_head (conversion : ScanConversion) (more : List Char) :
    ∃ ch text, conversion.render ++ more = ch :: text ∧ endsNumber ch = true ∧
      isFlag ch = false ∧ ch ≠ '.' := by
  cases conversion with
  | plain conversion length allowed =>
      obtain ⟨ch, text, htext, hends, hflag, hdot⟩ := length_head length conversion more
      exact ⟨ch, text, by rw [← htext, ScanConversion.render]; simp, hends, hflag, hdot⟩
  | longDouble conversion h => exact ⟨_, _, rfl, by decide, by decide, by decide⟩
  | scanset long set =>
      cases long <;> exact ⟨_, _, rfl, by decide, by decide, by decide⟩

theorem skipFlags_cons {ch : Char} (h : isFlag ch = false) (text : List Char) :
    skipFlags (ch :: text) = ch :: text := by
  rw [skipFlags, List.dropWhile_cons, if_neg (by rw [h]; exact Bool.false_ne_true)]

theorem precisionReaders_cons {ch : Char} (h : ch ≠ '.') (text : List Char) :
    precisionReaders (ch :: text) = ([], ch :: text) := if_neg h

/-- Digits, possibly none, are skipped. -/
theorem numberReaders_digits (digits : List Digit) {ch : Char} (hch : endsNumber ch = true)
    (text : List Char) :
    numberReaders (digits.map Digit.render ++ ch :: text) = ([], ch :: text) := by
  simp only [endsNumber, Bool.and_eq_true, Bool.not_eq_true', decide_eq_true_eq] at hch
  cases digits with
  | nil => simp [numberReaders, peek, hch.1, hch.2]
  | cons d ds =>
      have hdrop := dropWhile_map isDigit_render (d :: ds) hch.1 text
      rw [List.map_cons, List.cons_append] at hdrop ⊢
      rw [numberReaders, peek, List.headD_cons, if_pos (isDigit_render d), skipAtoi, hdrop]

/-- Behind a specification that is over, a conversion is text. -/
theorem formatReaders_conversion (conversion : ScanConversion) (more : List Char) :
    formatReaders (conversion.render ++ more) =
      (formatReaders more).map (conversion.setReaders ++ ·) := by
  have hne : ∀ conv : Conversion, '%' ≠ conv.render := by
    intro conv
    cases conv <;> decide
  cases conversion with
  | plain conversion length allowed =>
      have hlength : '%' ∉ renderLength length := by
        cases length with
        | none => exact List.not_mem_nil
        | some length => cases length <;> decide
      rw [ScanConversion.render, List.append_assoc, formatReaders_literals hlength,
        List.singleton_append, formatReaders_of_ne (hne conversion).symm]
      exact Option.map_id'.symm
  | longDouble conversion h =>
      have htext : '%' ∉ ['L', conversion.render] := by
        simp [hne conversion]
      rw [ScanConversion.render, formatReaders_literals htext]
      exact Option.map_id'.symm
  | scanset long set =>
      obtain ⟨rs, hrs, -⟩ := formatReaders_scanset set
      have htext : (ScanConversion.scanset long set).render ++ more =
          ((if long then ['l'] else []) ++ ['[']) ++ (set.render ++ more) := by
        simp [ScanConversion.render]
      have hopen : '%' ∉ (if long then ['l'] else []) ++ ['['] := by
        cases long <;> decide
      rw [htext, formatReaders_literals hopen, formatReaders_append more hrs,
        ScanConversion.setReaders, hrs, Option.getD_some]

/-- A digit is no conversion. -/
theorem endReaders_digit (digit : Digit) (text : List Char) :
    endReaders (digit.render :: text) = some ([], text) := by
  have hdigit : ∀ d : Digit, specifierReaders (LengthFlags.of none) d.render = [] ∧
      d.render ≠ 'l' ∧ d.render ≠ 'h' ∧ d.render ≠ 't' ∧ d.render ≠ 'j' ∧ d.render ≠ 'z' := by
    decide
  obtain ⟨hreaders, hl, hh, ht, hj, hz⟩ := hdigit digit
  have hlength : walkLength (digit.render :: text) =
      (LengthFlags.of none, digit.render :: text) := by
    rw [walkLength]
    · rfl
    all_goals
      rintro rest heq
      have hhead := (List.cons.inj heq).1
      contradiction
  rw [endReaders, hlength]
  exact congrArg (fun rs => some (rs, text)) hreaders

theorem formatReaders_directive (d : ScanDirective) (more : List Char) :
    formatReaders ('%' :: (d.render ++ more)) = (formatReaders more).map (d.readers ++ ·) := by
  obtain ⟨suppress, width, conversion, hcount⟩ := d
  obtain ⟨ch, text, htext, hends, hflag, hdot⟩ := conversion_head conversion more
  obtain ⟨rest, hrest, hset⟩ := endReaders_render conversion more
  have hdigit : ∀ first : Fin 9, isFlag (Digit.render first.succ) = false := by decide
  have hdigitDot : ∀ first : Fin 9, Digit.render first.succ ≠ '.' := by decide
  rw [formatReaders_percent]
  cases suppress with
  | false =>
      -- what the walker takes for the width is the width
      have hskip : skipFlags (renderScanWidth width ++ (conversion.render ++ more)) =
          renderScanWidth width ++ (conversion.render ++ more) := by
        cases width with
        | none =>
            rw [htext]
            exact skipFlags_cons hflag text
        | some width => exact skipFlags_cons (hdigit width.1) _
      have hnumber : numberReaders (renderScanWidth width ++ (conversion.render ++ more)) =
          ([], conversion.render ++ more) := by
        rw [htext]
        cases width with
        | none => exact numberReaders_digits [] hends text
        | some width => exact numberReaders_digits (width.1.succ :: width.2) hends text
      have hreaders : directiveReaders (renderScanWidth width ++ (conversion.render ++ more)) =
          some (conversion.readers, rest) := by
        rw [directiveReaders, hskip, hnumber, consReaders, htext, consReaders,
          precisionReaders_cons hdot, ← htext, hrest]
        rfl
      rw [ScanDirective.render, if_neg Bool.false_ne_true, List.nil_append, List.append_assoc,
        hreaders, Option.bind_some, hset, Option.map_map]
      simp [ScanDirective.readers, Function.comp_def]
  | true =>
      cases width with
      | none =>
          have hreaders : directiveReaders ('*' :: (conversion.render ++ more)) =
              some (.int :: conversion.readers, rest) := by
            rw [directiveReaders, skipFlags_cons rfl]
            show consReaders ([.int], conversion.render ++ more) _ = _
            rw [consReaders, htext, consReaders, precisionReaders_cons hdot, ← htext, hrest]
            rfl
          show (directiveReaders ('*' :: (conversion.render ++ more))).bind _ = _
          rw [hreaders, Option.bind_some, hset, Option.map_map]
          simp [ScanDirective.readers, Function.comp_def]
      | some width =>
          obtain ⟨first, digits⟩ := width
          let tail := digits.map Digit.render ++ (conversion.render ++ more)
          have hreaders : directiveReaders ('*' :: Digit.render first.succ :: tail) =
              some ([.int], tail) := by
            rw [directiveReaders, skipFlags_cons rfl]
            show consReaders ([.int], Digit.render first.succ :: tail) _ = _
            rw [consReaders, consReaders, precisionReaders_cons (hdigitDot first),
              endReaders_digit]
            rfl
          have hdigits : '%' ∉ digits.map Digit.render := by
            intro hmem
            obtain ⟨digit, -, heq⟩ := List.mem_map.mp hmem
            exact absurd heq ((by decide : ∀ d : Digit, d.render ≠ '%') digit)
          have hshape : (ScanDirective.mk true (some (first, digits)) conversion hcount).render ++
              more = '*' :: Digit.render first.succ :: tail := by
            simp [ScanDirective.render, renderScanWidth, tail]
          rw [hshape, hreaders, Option.bind_some, formatReaders_literals hdigits,
            formatReaders_conversion, Option.map_map]
          simp [ScanDirective.readers, Function.comp_def]

/-- The readers of a format are those of its pieces. -/
theorem formatReaders_renderScan (format : List ScanPiece) :
    formatReaders (renderScan format) = some (format.flatMap ScanPiece.readers) := by
  induction format with
  | nil =>
      rw [renderScan, List.flatMap_nil, formatReaders]
      rfl
  | cons piece format ih =>
      rw [renderScan, List.flatMap_cons, List.flatMap_cons, ← renderScan]
      cases piece with
      | literal ch h => exact (formatReaders_of_ne h _).trans ih
      | percent =>
          rw [ScanPiece.render, List.cons_append, List.singleton_append, formatReaders_percent]
          show (formatReaders (renderScan format)).map ([] ++ ·) = _
          rw [ih]
          rfl
      | directive d =>
          rw [ScanPiece.render, List.cons_append, formatReaders_directive, ih]
          rfl

/-! ## What is recorded -/

/-- A pointer among the arguments of a call. -/
def pointerValue (p : BitVec 64) : Value := ⟨.pointer, p⟩

/-- A pointer entry. -/
def pointerEntry (p : BitVec 64) : CVargEntry := Reader.pointer.box p

/-- Wherever a string is looked for there is one. -/
def StringsEnd (mem : CharMemory) (rs : List Reader) (pointers : List (BitVec 64)) : Prop :=
  ∀ rp ∈ rs.zip pointers, rp.1 = .string → HasString mem rp.2 = true

instance (mem : CharMemory) (rs : List Reader) (pointers : List (BitVec 64)) :
    Decidable (StringsEnd mem rs pointers) :=
  inferInstanceAs (Decidable (∀ rp ∈ rs.zip pointers, rp.1 = .string → HasString mem rp.2 = true))

theorem stringsEnd_cons (mem : CharMemory) (r : Reader) (rs : List Reader) (p : BitVec 64)
    (pointers : List (BitVec 64)) :
    StringsEnd mem (r :: rs) (p :: pointers) ↔
      (r = .string → HasString mem p = true) ∧ StringsEnd mem rs pointers := by
  rw [StringsEnd, List.zip_cons_cons, List.forall_mem_cons]
  rfl

theorem readIn_pointerValue (mem : CharMemory) (r : Reader) (p : BitVec 64) (ap : List Value) :
    readIn mem r (pointerValue p :: ap) =
      if r = .string → HasString mem p = true then some (pointerEntry p, ap) else none := by
  have hbox : (scanfReaders r).box p = pointerEntry p := by cases r <;> rfl
  have hwidth : p.setWidth 64 = p := BitVec.setWidth_eq p
  show (if r = .string → HasString mem (p.setWidth 64) = true then
    some ((scanfReaders r).box p, ap) else none) = _
  rw [hbox, hwidth]

/-- Readers read pointers one by one. -/
theorem readAllIn_pointers (mem : CharMemory) (rs : List Reader) (pointers : List (BitVec 64)) :
    readAllIn mem rs (pointers.map pointerValue) =
      if rs.length ≤ pointers.length ∧ StringsEnd mem rs pointers then
        some ((pointers.take rs.length).map pointerEntry,
          (pointers.drop rs.length).map pointerValue)
      else none := by
  induction rs generalizing pointers with
  | nil => exact (if_pos ⟨Nat.zero_le _, fun _ h => nomatch h⟩).symm
  | cons r rs ih =>
      cases pointers with
      | nil => exact (if_neg fun h => Nat.not_succ_le_zero _ h.1).symm
      | cons p pointers =>
          have hcons := stringsEnd_cons mem r rs p pointers
          rw [List.map_cons, readAllIn, readIn_pointerValue]
          by_cases hstring : r = .string → HasString mem p = true
          · rw [if_pos hstring, Option.bind_some]
            show (readAllIn mem rs (pointers.map pointerValue)).map _ = _
            rw [ih]
            by_cases hrest : rs.length ≤ pointers.length ∧ StringsEnd mem rs pointers
            · rw [if_pos hrest,
                if_pos ⟨Nat.succ_le_succ hrest.1, hcons.mpr ⟨hstring, hrest.2⟩⟩]
              rfl
            · rw [if_neg hrest,
                if_neg fun h => hrest ⟨Nat.le_of_succ_le_succ h.1, (hcons.mp h.2).2⟩]
              rfl
          · rw [if_neg hstring, if_neg fun h => hstring (hcons.mp h.2).1]
            rfl

/-- What `extractScanFArgs` records of pointers. -/
theorem extractScanFArgs_pointers (mem : CharMemory) (format : List ScanPiece)
    (pointers : List (BitVec 64)) {rs : List Reader} (hrs : format.flatMap ScanPiece.readers = rs) :
    extractScanFArgs mem (renderScan format) (pointers.map pointerValue) =
      if rs.length ≤ pointers.length ∧ StringsEnd mem rs pointers then
        some (rs.length, (pointers.take rs.length).map pointerEntry ++ [terminator])
      else none := by
  have hout : mpVsnprintfScanf mem (renderScan format) (pointers.map pointerValue) =
      ((readAllIn mem rs (pointers.map pointerValue)).map Prod.fst).map (· ++ [terminator]) := by
    rw [mpVsnprintfScanf, walkFormatIn_eq mem _ _ (Nat.le_refl _), formatReaders_renderScan, hrs]
    rfl
  rw [extractScanFArgs, hout, readAllIn_pointers]
  split
  next h =>
    have hrecords : ∀ e ∈ (pointers.take rs.length).map pointerEntry, e.type ≠ .void := by
      intro e he
      obtain ⟨p, -, rfl⟩ := List.mem_map.mp he
      exact nofun
    have hcount : sentinelIndex ((pointers.take rs.length).map pointerEntry ++ [terminator]) =
        some rs.length := by
      have happend := sentinelIndex_append hrecords 0 []
      rwa [List.length_map, List.length_take, Nat.min_eq_left h.1] at happend
    rw [Option.map_some, Option.map_some, Option.bind_eq_bind, Option.bind_some, hcount]
    rfl
  next => rfl

/-! ## The arguments that are read and those that are not -/

/-- The walker's specifier `switch` has no case for these. -/
def ScanConversion.unknown : ScanConversion → Bool
  | .plain conversion _ _ => conversion = .n || conversion = .a || conversion = .A
  | .longDouble _ _ | .scanset _ _ => true

/-- The arguments that the text of a scanset makes the walker read. -/
def ScanConversion.setCount : ScanConversion → Nat
  | .plain _ _ _ | .longDouble _ _ => 0
  | .scanset _ set => FormatState.count none set.render

/-- The arguments that are read without being consumed. -/
def ScanPiece.excess : ScanPiece → Nat
  | .literal _ _ | .percent => 0
  | .directive d =>
      (if d.suppress then if d.conversion.unknown || d.width.isSome then 1 else 2 else 0) +
        d.conversion.setCount

/-- The arguments that are consumed without being read. -/
def ScanPiece.missed : ScanPiece → Nat
  | .literal _ _ | .percent => 0
  | .directive d => if !d.suppress && d.conversion.unknown then 1 else 0

theorem ScanConversion.length_readers (conversion : ScanConversion) :
    conversion.readers.length = if conversion.unknown then 0 else 1 := by
  cases conversion with
  | plain conversion length allowed =>
      cases conversion with
      | d | i | u | o | x | X =>
          cases length with
          | none => rfl
          | some length => cases length <;> rfl
      | _ => rfl
  | longDouble conversion h => rfl
  | scanset long set => rfl

theorem ScanConversion.length_setReaders (conversion : ScanConversion) :
    conversion.setReaders.length = conversion.setCount := by
  cases conversion with
  | plain conversion length allowed => rfl
  | longDouble conversion h => rfl
  | scanset long set =>
      obtain ⟨rs, hrs, hlength⟩ := formatReaders_scanset set
      rw [setReaders, hrs, Option.getD_some, hlength, setCount]

theorem ScanPiece.length_readers (piece : ScanPiece) :
    piece.readers.length + piece.missed = piece.arguments + piece.excess := by
  cases piece with
  | literal ch h => rfl
  | percent => rfl
  | directive d =>
      obtain ⟨suppress, width, conversion, hcount⟩ := d
      have hreaders := conversion.length_readers
      have hset := conversion.length_setReaders
      simp only [readers, ScanDirective.readers, List.length_append, missed, arguments, excess,
        hset]
      cases hunknown : conversion.unknown with
      | false =>
          rw [hunknown] at hreaders
          cases suppress <;> cases width <;> simp +arith [hreaders]
      | true =>
          rw [hunknown] at hreaders
          cases suppress <;> cases width <;> simp +arith [hreaders]

theorem length_readers (format : List ScanPiece) :
    (format.flatMap ScanPiece.readers).length + (format.map ScanPiece.missed).sum =
      (format.map ScanPiece.arguments).sum + (format.map ScanPiece.excess).sum := by
  induction format with
  | nil => rfl
  | cons piece format ih =>
      have hpiece := piece.length_readers
      simp only [List.flatMap_cons, List.length_append, List.map_cons, List.sum_cons]
      omega

/-- The destinations are recorded one by one exactly if as many pointers are read without
being consumed as are consumed without being read, and every pointer that is read for an
`s` leads to a string. -/
theorem records_destinations_iff (mem : CharMemory) {format : List ScanPiece}
    {pointers : List (BitVec 64)} (h : pointers.length = (format.map ScanPiece.arguments).sum) :
    extractScanFArgs mem (renderScan format) (pointers.map pointerValue) =
        some (pointers.length, pointers.map pointerEntry ++ [terminator]) ↔
      (format.map ScanPiece.excess).sum = (format.map ScanPiece.missed).sum ∧
        StringsEnd mem (format.flatMap ScanPiece.readers) pointers := by
  have hlength := length_readers format
  rw [extractScanFArgs_pointers mem format pointers rfl]
  constructor
  · intro heq
    split at heq
    next hread =>
      have hsame := (Prod.mk.inj (Option.some.inj heq)).1
      exact ⟨by omega, hread.2⟩
    next => exact nomatch heq
  · rintro ⟨hsum, hstrings⟩
    have hsame : (format.flatMap ScanPiece.readers).length = pointers.length := by omega
    rw [if_pos ⟨Nat.le_of_eq hsame, hstrings⟩, hsame, List.take_length]

/-- `%5d %s` -/
def scanNumberAndString : List ScanPiece :=
  [.directive ⟨false, some (4, []), .plain .d none (Conversion.allows_none .d), nofun⟩,
    .literal ' ' space_ne_percent,
    .directive ⟨false, none, .plain .s none (Conversion.allows_none .s), nofun⟩]

theorem records_destinations_numberAndString :
    extractScanFArgs (fun _ => some 0) (renderScan scanNumberAndString)
        ([16, 32].map pointerValue) =
        some (2, [16, 32].map pointerEntry ++ [terminator]) ↔
      (scanNumberAndString.map ScanPiece.excess).sum =
          (scanNumberAndString.map ScanPiece.missed).sum ∧
        StringsEnd (fun _ => some 0) (scanNumberAndString.flatMap ScanPiece.readers) [16, 32] :=
  records_destinations_iff (fun _ => some 0) rfl

/-- The destination of a scanset is not recorded. -/
theorem not_records_destinations :
    ∃ (format : List ScanPiece) (pointers : List (BitVec 64)),
      pointers.length = (format.map ScanPiece.arguments).sum ∧
        ∀ mem, extractScanFArgs mem (renderScan format) (pointers.map pointerValue) ≠
          some (pointers.length, pointers.map pointerEntry ++ [terminator]) := by
  let set : Scanset := ⟨false, 'a', ['-', 'z'], by decide, by decide⟩
  refine ⟨[.directive ⟨false, none, .scanset false set, nofun⟩], [16], rfl, ?_⟩
  intro mem heq
  have hreaders : [ScanPiece.directive ⟨false, none, .scanset false set, nofun⟩].flatMap
      ScanPiece.readers = [] := by
    have hlength := length_readers [.directive ⟨false, none, .scanset false set, nofun⟩]
    exact List.length_eq_zero_iff.mp (Nat.succ.inj hlength)
  rw [extractScanFArgs_pointers mem _ _ hreaders] at heq
  split at heq
  · exact nomatch (Prod.mk.inj (Option.some.inj heq)).1
  · exact nomatch heq

end Lorelei.Variadic
