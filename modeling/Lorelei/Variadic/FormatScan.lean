import Lorelei.Variadic.Extract

/-!
# What the walk over any format reads

Where a specification in a format ends is decided one character at a time (`FormatField.step`),
also where the format is not well formed. The walkers read one argument for each `*` and
each conversion they know, and none at all if the format ends inside a specification.
-/

namespace Lorelei.Variadic

/-! ## Specifications, one character at a time -/

/-- What has been read of a specification. -/
inductive FormatField where
  | flags | width | afterWidth | dot | precision | afterPrecision | l | h | length
deriving DecidableEq, Repr

/-- The first character of a length. -/
def lengthStep (ch : Char) : Option FormatField :=
  if ch = 'l' then some .l
  else if ch = 'h' then some .h
  else if ch = 't' ∨ ch = 'j' ∨ ch = 'z' then some .length
  else none

/-- The next character of a specification; `none` for the conversion. -/
def FormatField.step : FormatField → Char → Option FormatField
  | .flags, ch =>
      if isFlag ch then some .flags
      else if isDigit ch then some .width
      else if ch = '*' then some .afterWidth
      else if ch = '.' then some .dot
      else lengthStep ch
  | .width, ch =>
      if isDigit ch then some .width else if ch = '.' then some .dot else lengthStep ch
  | .afterWidth, ch => if ch = '.' then some .dot else lengthStep ch
  | .dot, ch =>
      if isDigit ch then some .precision
      else if ch = '*' then some .afterPrecision
      else lengthStep ch
  | .precision, ch => if isDigit ch then some .precision else lengthStep ch
  | .afterPrecision, ch => lengthStep ch
  | .l, ch => if ch = 'l' then some .length else none
  | .h, ch => if ch = 'h' then some .length else none
  | .length, _ => none

/-- The place in a format: in a specification or outside of all. -/
abbrev FormatState := Option FormatField

def FormatState.next (state : FormatState) (ch : Char) : FormatState :=
  match state with
  | none => if ch = '%' then some .flags else none
  | some field => field.step ch

/-- The place behind a text. -/
def FormatState.after (state : FormatState) (format : List Char) : FormatState :=
  format.foldl FormatState.next state

/-- The conversions that the specifier `switch` has a case for. -/
def isConversion (ch : Char) : Bool := ch ∈ "diuxXobfFeEgGcsp".toList

/-- The arguments that a character makes the walker read. -/
def FormatState.reads (state : FormatState) (ch : Char) : Nat :=
  match state with
  | none => 0
  | some field =>
      match field.step ch with
      | some _ => if ch = '*' then 1 else 0
      | none => if isConversion ch then 1 else 0

/-- The arguments that a text makes the walker read. -/
def FormatState.count : FormatState → List Char → Nat
  | _, [] => 0
  | state, ch :: format => state.reads ch + FormatState.count (state.next ch) format

namespace FormatState

variable (state : FormatState) (format format' : List Char)

@[simp] theorem after_nil : state.after [] = state := rfl

@[simp] theorem after_cons (ch : Char) :
    state.after (ch :: format) = (state.next ch).after format := rfl

theorem after_append : state.after (format ++ format') = (state.after format).after format' :=
  List.foldl_append ..

theorem count_append :
    state.count (format ++ format') = state.count format + (state.after format).count format' := by
  induction format generalizing state with
  | nil => simp [count]
  | cons ch format ih => simp [count, ih, Nat.add_assoc]

end FormatState

/-- The rest of a specification: how many arguments it reads and what follows it. -/
def FormatField.rest : FormatField → List Char → Option (Nat × List Char)
  | _, [] => none
  | field, ch :: format =>
      match field.step ch with
      | some field' => (field'.rest format).map fun r => ((if ch = '*' then 1 else 0) + r.1, r.2)
      | none => some (if isConversion ch then 1 else 0, format)

theorem FormatField.rest_of_step {field field' : FormatField} {ch : Char}
    (h : field.step ch = some field') (format : List Char) : field.rest (ch :: format) =
      (field'.rest format).map fun r => ((if ch = '*' then 1 else 0) + r.1, r.2) := by
  rw [FormatField.rest, h]

theorem FormatField.rest_of_none {field : FormatField} {ch : Char} (h : field.step ch = none)
    (format : List Char) :
    field.rest (ch :: format) = some (if isConversion ch then 1 else 0, format) := by
  rw [FormatField.rest, h]

/-- A character that reads nothing. -/
theorem FormatField.rest_of_step_ne {field field' : FormatField} {ch : Char}
    (h : field.step ch = some field') (hch : ch ≠ '*') (format : List Char) :
    field.rest (ch :: format) = field'.rest format := by
  rw [rest_of_step h, if_neg hch]
  simp

/-- What follows a specification goes on outside of it. -/
theorem FormatField.count_after {field : FormatField} {format : List Char} :
    match field.rest format with
    | none => (FormatState.after (some field) format).isSome = true
    | some r => FormatState.after (some field) format = FormatState.after none r.2 ∧
        FormatState.count (some field) format = r.1 + FormatState.count none r.2 := by
  induction format generalizing field with
  | nil => rfl
  | cons ch format ih =>
      cases hstep : field.step ch with
      | none =>
          rw [FormatField.rest_of_none hstep]
          simp [FormatState.count, FormatState.next, FormatState.reads, hstep]
      | some field' =>
          have hfield' := @ih field'
          rw [FormatField.rest_of_step hstep]
          cases hrest : field'.rest format with
          | none =>
              rw [hrest] at hfield'
              simpa [FormatState.next, hstep] using hfield'
          | some r =>
              rw [hrest] at hfield'
              simp [FormatState.count, FormatState.next, FormatState.reads, hstep, hfield',
                Nat.add_assoc]

/-! ## The fields of the walkers -/

/-- The readers of a number field, and what follows it. -/
def numberReaders (format : List Char) : List Reader × List Char :=
  if isDigit (peek format) then ([], skipAtoi format)
  else if peek format = '*' then ([.int], format.tail)
  else ([], format)

def precisionReaders (format : List Char) : List Reader × List Char :=
  if peek format = '.' then numberReaders format.tail else ([], format)

def specifierReaders (flags : LengthFlags) (ch : Char) : List Reader :=
  if ch = 'd' ∨ ch = 'i' then
    [if flags.longLong then .longLong else if flags.long then .long else .int]
  else if ch = 'u' ∨ ch = 'x' ∨ ch = 'X' ∨ ch = 'o' ∨ ch = 'b' then
    [if flags.longLong then .unsignedLongLong else if flags.long then .unsignedLong
      else .unsignedInt]
  else if ch = 'f' ∨ ch = 'F' ∨ ch = 'e' ∨ ch = 'E' ∨ ch = 'g' ∨ ch = 'G' then [.double]
  else if ch = 'c' then [.int]
  else if ch = 's' then [.string]
  else if ch = 'p' then [.pointer]
  else []

/-- The length and the specifier. -/
def endReaders (format : List Char) : Option (List Reader × List Char) :=
  match walkLength format with
  | (_, []) => none
  | (flags, ch :: format) => some (specifierReaders flags ch, format)

/-- A field in front of others. -/
def consReaders (field : List Reader × List Char)
    (others : List Char → Option (List Reader × List Char)) :
    Option (List Reader × List Char) :=
  (others field.2).map fun r => (field.1 ++ r.1, r.2)

/-- The readers of what follows a `%`; `none` if the format ends in it. -/
def directiveReaders (format : List Char) : Option (List Reader × List Char) :=
  consReaders (numberReaders (skipFlags format)) fun format =>
    consReaders (precisionReaders format) endReaders

theorem walkNumber_eq (rd : Readers) (format : List Char) (ap : List Value) :
    walkNumber rd format ap = (readAll rd (numberReaders format).1 ap).map
      fun (es, ap) => ⟨es, (numberReaders format).2, ap⟩ := by
  rw [walkNumber, numberReaders]
  split
  · rfl
  · split
    · exact readArg_eq ..
    · rfl

theorem walkPrecision_eq (rd : Readers) (format : List Char) (ap : List Value) :
    walkPrecision rd format ap = (readAll rd (precisionReaders format).1 ap).map
      fun (es, ap) => ⟨es, (precisionReaders format).2, ap⟩ := by
  rw [walkPrecision, precisionReaders]
  split
  · exact walkNumber_eq ..
  · rfl

/-- The specifier `switch`, by the groups of its cases. -/
theorem walkSpecifier_cons (rd : Readers) (flags : LengthFlags) (ch : Char) (format : List Char)
    (ap : List Value) : walkSpecifier rd flags (ch :: format) ap =
      (readAll rd (specifierReaders flags ch) ap).map fun (es, ap) => ⟨es, format, ap⟩ := by
  have hread : ∀ r, readArg rd r format ap =
      (readAll rd [r] ap).map fun (es, ap) => ⟨es, format, ap⟩ := fun r => readArg_eq ..
  rw [specifierReaders]
  split
  next h =>
    rcases h with rfl | rfl <;>
      (rw [← hread]; simp only [walkSpecifier]; split_ifs <;> rfl)
  split
  next h =>
    rcases h with rfl | rfl | rfl | rfl | rfl <;>
      (rw [← hread]; simp only [walkSpecifier]; split_ifs <;> rfl)
  split
  next h => rcases h with rfl | rfl | rfl | rfl | rfl | rfl <;> exact hread .double
  split
  next h => subst h; exact hread .int
  split
  next h => subst h; exact hread .string
  split
  next h => subst h; exact hread .pointer
  next hd hu hf hc hs hp =>
    simp only [not_or] at hd hu hf
    rw [walkSpecifier]
    · rfl
    all_goals (rintro rfl; simp_all)

theorem walkSpecifier_length (rd : Readers) (format : List Char) (ap : List Value) :
    walkSpecifier rd (walkLength format).1 (walkLength format).2 ap =
      (endReaders format).bind fun r =>
        (readAll rd r.1 ap).map fun (es, ap) => ⟨es, r.2, ap⟩ := by
  rw [endReaders]
  obtain ⟨flags, rest⟩ := walkLength format
  cases rest with
  | nil => rfl
  | cons ch rest => exact walkSpecifier_cons ..

/-- Readers that read one argument after the other. -/
structure ReadsInOrder
    (read : List Reader → List Value → Option (List CVargEntry × List Value)) : Prop where
  nil (ap : List Value) : read [] ap = some ([], ap)
  append (rs rs' : List Reader) (ap : List Value) :
    read (rs ++ rs') ap = (read rs ap).bind fun (es, ap) =>
      (read rs' ap).map fun (es', ap) => (es ++ es', ap)

theorem readAll_inOrder (rd : Readers) : ReadsInOrder (readAll rd) :=
  ⟨fun _ => rfl, readAll_append rd⟩

/-- A specification is read in order if each of its fields is. -/
theorem ReadsInOrder.directive
    {read : List Reader → List Value → Option (List CVargEntry × List Value)}
    (hread : ReadsInOrder read) {width precision specifier : List Char → List Value → Option Walk}
    (hwidth : ∀ format ap, width format ap = (read (numberReaders format).1 ap).map
      fun (es, ap) => ⟨es, (numberReaders format).2, ap⟩)
    (hprecision : ∀ format ap, precision format ap = (read (precisionReaders format).1 ap).map
      fun (es, ap) => ⟨es, (precisionReaders format).2, ap⟩)
    (hspecifier : ∀ format ap, specifier format ap = (endReaders format).bind fun r =>
      (read r.1 ap).map fun (es, ap) => ⟨es, r.2, ap⟩)
    (format : List Char) (ap : List Value) :
    ((width (skipFlags format) ap).bind fun w₁ => (precision w₁.format w₁.ap).bind fun w₂ =>
      (specifier w₂.format w₂.ap).map fun w₃ =>
        (⟨w₁.entries ++ w₂.entries ++ w₃.entries, w₃.format, w₃.ap⟩ : Walk)) =
      (directiveReaders format).bind fun r =>
        (read r.1 ap).map fun (es, ap) => ⟨es, r.2, ap⟩ := by
  rw [hwidth, directiveReaders]
  simp only [consReaders, Option.map_map, Option.bind_map, Option.map_bind, Function.comp_def,
    hprecision, hspecifier, hread.append]
  cases read (numberReaders (skipFlags format)).1 ap with
  | none => cases endReaders _ <;> rfl
  | some w₁ =>
      cases hp : read (precisionReaders (numberReaders (skipFlags format)).2).1 w₁.2 with
      | none => cases endReaders _ <;> simp [hp]
      | some w₂ =>
          cases hend : endReaders (precisionReaders (numberReaders (skipFlags format)).2).2 with
          | none => simp [hp]
          | some r =>
              cases hr : read r.1 w₂.2 with
              | none => simp [hp, hr]
              | some w₃ => simp [hp, hr]

theorem walkDirective_eq (rd : Readers) (format : List Char) (ap : List Value) :
    walkDirective rd format ap = (directiveReaders format).bind fun r =>
      (readAll rd r.1 ap).map fun (es, ap) => ⟨es, r.2, ap⟩ := by
  rw [← (readAll_inOrder rd).directive (walkNumber_eq rd) (walkPrecision_eq rd)
    (walkSpecifier_length rd), walkDirective]
  simp only [walkWidth, Option.bind_eq_bind, Option.map_eq_bind]
  rfl

/-! ## The walk over any format -/

theorem numberReaders_suffix (format : List Char) : (numberReaders format).2 <:+ format := by
  rw [numberReaders]
  split
  · exact List.dropWhile_suffix _
  · split
    · exact List.tail_suffix _
    · exact List.suffix_refl _

theorem precisionReaders_suffix (format : List Char) : (precisionReaders format).2 <:+ format := by
  rw [precisionReaders]
  split
  · exact (numberReaders_suffix _).trans (List.tail_suffix _)
  · exact List.suffix_refl _

theorem walkLength_suffix (format : List Char) : (walkLength format).2 <:+ format := by
  rw [walkLength.eq_def]
  split
  · exact ⟨['l', 'l'], rfl⟩
  · exact ⟨['l'], rfl⟩
  · exact ⟨['h', 'h'], rfl⟩
  · exact ⟨['h'], rfl⟩
  · exact ⟨['t'], rfl⟩
  · exact ⟨['j'], rfl⟩
  · exact ⟨['z'], rfl⟩
  · exact List.suffix_refl _

/-- A specification takes at least its conversion. -/
theorem directiveReaders_suffix {format : List Char} {r : List Reader × List Char}
    (h : directiveReaders format = some r) : ∃ ch, ch :: r.2 <:+ format := by
  obtain ⟨r₁, hr₁, rfl⟩ := Option.map_eq_some_iff.mp h
  obtain ⟨r₂, hr₂, rfl⟩ := Option.map_eq_some_iff.mp hr₁
  have hnumber : (numberReaders (skipFlags format)).2 <:+ format :=
    (numberReaders_suffix _).trans (List.dropWhile_suffix _)
  have hprecision := (precisionReaders_suffix (numberReaders (skipFlags format)).2).trans hnumber
  have hlength := (walkLength_suffix _).trans hprecision
  rw [endReaders] at hr₂
  split at hr₂
  · exact nomatch hr₂
  next flags ch rest heq =>
    obtain rfl := Option.some.inj hr₂
    rw [heq] at hlength
    exact ⟨ch, hlength⟩

theorem length_directiveReaders {format : List Char} {r : List Reader × List Char}
    (h : directiveReaders format = some r) : r.2.length < format.length := by
  obtain ⟨ch, hsuffix⟩ := directiveReaders_suffix h
  exact hsuffix.length_le

/-- The readers of a format; `none` if it ends inside a specification. -/
def formatReaders : List Char → Option (List Reader)
  | [] => some []
  | ch :: format =>
      if ch = '%' then
        match h : directiveReaders format with
        | none => none
        | some r =>
            have := length_directiveReaders h
            (formatReaders r.2).map (r.1 ++ ·)
      else formatReaders format
termination_by format => format.length

theorem formatReaders_percent (format : List Char) :
    formatReaders ('%' :: format) =
      (directiveReaders format).bind fun r => (formatReaders r.2).map (r.1 ++ ·) := by
  rw [formatReaders, if_pos rfl]
  split
  next h => rw [h, Option.bind_none]
  next h => simp only [h, Option.bind_some]

theorem formatReaders_of_ne {ch : Char} (h : ch ≠ '%') (format : List Char) :
    formatReaders (ch :: format) = formatReaders format := by
  rw [formatReaders, if_neg h]

/-- A walk reads what the readers of the format read if its specifications do. -/
theorem ReadsInOrder.format
    {read : List Reader → List Value → Option (List CVargEntry × List Value)}
    (hread : ReadsInOrder read) {walk : Nat → List Char → List Value → Option (List CVargEntry)}
    (hnil : ∀ turns ap, walk turns [] ap = some [])
    (hpercent : ∀ turns format ap, walk (turns + 1) ('%' :: format) ap =
      ((directiveReaders format).bind fun r => (read r.1 ap).map
        fun (es, ap) => (⟨es, r.2, ap⟩ : Walk)).bind fun w =>
          (walk turns w.format w.ap).map (w.entries ++ ·))
    (hother : ∀ turns ch format ap, ch ≠ '%' →
      walk (turns + 1) (ch :: format) ap = walk turns format ap)
    (format : List Char) (turns : Nat) (hturns : format.length ≤ turns) (ap : List Value) :
    walk turns format ap =
      (formatReaders format).bind fun rs => (read rs ap).map Prod.fst := by
  induction turns generalizing format ap with
  | zero =>
      obtain rfl : format = [] := List.length_eq_zero_iff.mp (Nat.le_zero.mp hturns)
      rw [hnil, formatReaders, Option.bind_some, hread.nil]
      rfl
  | succ turns ih =>
      cases format with
      | nil =>
          rw [hnil, formatReaders, Option.bind_some, hread.nil]
          rfl
      | cons ch format =>
          have hlen : format.length ≤ turns := Nat.le_of_succ_le_succ hturns
          by_cases hch : ch = '%'
          · subst hch
            rw [hpercent, formatReaders_percent]
            cases hd : directiveReaders format with
            | none => rfl
            | some r =>
                have hrest := length_directiveReaders hd
                simp only [Option.bind_some, Option.bind_map, Function.comp_def,
                  ih r.2 (by omega), hread.append]
                cases read r.1 ap with
                | none => cases formatReaders r.2 <;> rfl
                | some w =>
                    cases formatReaders r.2 with
                    | none => rfl
                    | some rs =>
                        simp only [Option.bind_some]
                        cases read rs w.2 <;> rfl
          · rw [hother _ _ _ _ hch, formatReaders_of_ne hch, ih format hlen]

/-- The walk reads what the readers of the format read, in order. -/
theorem walkFormat_eq (rd : Readers) (format : List Char) (turns : Nat)
    (hturns : format.length ≤ turns) (ap : List Value) :
    walkFormat rd turns format ap =
      (formatReaders format).bind fun rs => (readAll rd rs ap).map Prod.fst := by
  refine (readAll_inOrder rd).format ?_ ?_ ?_ format turns hturns ap
  · intro turns ap
    cases turns <;> rfl
  · intro turns format ap
    rw [← walkDirective_eq]
    simp only [Option.map_eq_bind]
    rfl
  · intro turns ch format ap hch
    rw [walkFormat]
    exact fun heq => hch heq

/-! ## Where the fields end -/

/-- How many arguments readers read, and what follows. -/
def counted (r : List Reader × List Char) : Nat × List Char := (r.1.length, r.2)

theorem length_specifierReaders (flags : LengthFlags) (ch : Char) :
    (specifierReaders flags ch).length = if isConversion ch then 1 else 0 := by
  rw [specifierReaders]
  split
  next h => rcases h with rfl | rfl <;> rfl
  split
  next h => rcases h with rfl | rfl | rfl | rfl | rfl <;> rfl
  split
  next h => rcases h with rfl | rfl | rfl | rfl | rfl | rfl <;> rfl
  split
  next h => subst h; rfl
  split
  next h => subst h; rfl
  split
  next h => subst h; rfl
  next hd hu hf hc hs hp =>
    have hnot : isConversion ch = false := by
      simp only [not_or] at hd hu hf
      simp [isConversion, hd, hu, hf, hc, hs, hp]
    rw [hnot]
    rfl

/-- Behind the length stands the conversion. -/
theorem endReaders_of_walkLength (format : List Char) :
    (endReaders format).map counted = FormatField.length.rest (walkLength format).2 := by
  rw [endReaders]
  obtain ⟨flags, rest⟩ := walkLength format
  cases rest with
  | nil => rfl
  | cons ch rest =>
      rw [FormatField.rest_of_none rfl, Option.map_some, counted, length_specifierReaders]

/-- Where no length goes on, the conversion follows. -/
theorem rest_eq_of_step_none {field : FormatField} {format : List Char}
    (h : ∀ ch rest, format = ch :: rest → field.step ch = none) :
    FormatField.length.rest format = field.rest format := by
  cases format with
  | nil => rfl
  | cons ch rest => rw [FormatField.rest_of_none (h ch rest rfl), FormatField.rest_of_none rfl]

theorem endReaders_eq_rest (format : List Char) :
    (endReaders format).map counted = FormatField.afterPrecision.rest format := by
  rw [endReaders_of_walkLength]
  cases format using walkLength.fun_cases with
  | case1 rest =>
      rw [FormatField.rest_of_step_ne rfl (by decide), FormatField.rest_of_step_ne rfl (by decide)]
      rfl
  | case2 rest hne =>
      have hrest : (walkLength ('l' :: rest)).2 = rest := by rw [walkLength]; exact hne
      rw [FormatField.rest_of_step_ne rfl (by decide), hrest]
      refine rest_eq_of_step_none ?_
      rintro ch rest rfl
      exact if_neg fun hch => hne rest (by rw [hch])
  | case3 rest =>
      rw [FormatField.rest_of_step_ne rfl (by decide), FormatField.rest_of_step_ne rfl (by decide)]
      rfl
  | case4 rest hne =>
      have hrest : (walkLength ('h' :: rest)).2 = rest := by rw [walkLength]; exact hne
      rw [FormatField.rest_of_step_ne rfl (by decide), hrest]
      refine rest_eq_of_step_none ?_
      rintro ch rest rfl
      exact if_neg fun hch => hne rest (by rw [hch])
  | case5 rest =>
      rw [FormatField.rest_of_step_ne rfl (by decide)]
      rfl
  | case6 rest =>
      rw [FormatField.rest_of_step_ne rfl (by decide)]
      rfl
  | case7 rest =>
      rw [FormatField.rest_of_step_ne rfl (by decide)]
      rfl
  | case8 format hll hl hhh hh ht hj hz =>
      have hrest : (walkLength format).2 = format := by
        rw [walkLength] <;> assumption
      rw [hrest]
      refine rest_eq_of_step_none ?_
      rintro ch rest rfl
      have hl' : ch ≠ 'l' := fun h => hl rest (by rw [h])
      have hh' : ch ≠ 'h' := fun h => hh rest (by rw [h])
      have ht' : ch ≠ 't' := fun h => ht rest (by rw [h])
      have hj' : ch ≠ 'j' := fun h => hj rest (by rw [h])
      have hz' : ch ≠ 'z' := fun h => hz rest (by rw [h])
      simp [FormatField.step, lengthStep, hl', hh', ht', hj', hz']

/-- A number field between two places, in front of fields that end a specification. -/
theorem number_eq_rest {start digits done : FormatField}
    {others : List Char → Option (List Reader × List Char)} {format : List Char}
    (hothers : ∀ format, (others format).map counted = done.rest format)
    (hstart : ∀ ch rest, format = ch :: rest → start.step ch = if isDigit ch then some digits
      else if ch = '*' then some done else done.step ch)
    (hdigits : ∀ ch, digits.step ch = if isDigit ch then some digits else done.step ch) :
    (consReaders (numberReaders format) others).map counted = start.rest format := by
  have hmap : ∀ (rs : List Reader) (rest : List Char),
      (consReaders (rs, rest) others).map counted =
        (done.rest rest).map fun r => (rs.length + r.1, r.2) := by
    intro rs rest
    rw [← hothers, consReaders, Option.map_map, Option.map_map]
    simp [Function.comp_def, counted]
  -- the digits are skipped
  have hskip : ∀ rest, done.rest (rest.dropWhile isDigit) = digits.rest rest := by
    intro rest
    induction rest with
    | nil => rfl
    | cons ch rest ih =>
        rw [List.dropWhile_cons]
        split
        next hch =>
          have hne : ch ≠ '*' := by
            rintro rfl
            exact absurd hch (by decide)
          rw [FormatField.rest_of_step_ne (by rw [hdigits, if_pos hch]) hne, ih]
        next hch => rw [FormatField.rest, FormatField.rest, hdigits, if_neg hch]
  rw [numberReaders]
  cases format with
  | nil => exact (hmap [] []).trans rfl
  | cons ch rest =>
      have hstep := hstart ch rest rfl
      rw [peek, List.headD_cons]
      split
      next hch =>
        have hne : ch ≠ '*' := by
          rintro rfl
          exact absurd hch (by decide)
        rw [if_pos hch] at hstep
        rw [hmap, skipAtoi, hskip, FormatField.rest_of_step_ne hstep hne,
          FormatField.rest_of_step_ne (by rw [hdigits, if_pos hch]) hne]
        simp
      next hch =>
        rw [if_neg hch] at hstep
        split
        next hstar =>
          subst hstar
          rw [if_pos rfl] at hstep
          rw [hmap, FormatField.rest_of_step hstep]
          rfl
        next hstar =>
          rw [if_neg hstar] at hstep
          rw [hmap, FormatField.rest, FormatField.rest, hstep]
          simp

theorem precision_eq_rest (format : List Char) :
    (consReaders (precisionReaders format) endReaders).map counted =
      FormatField.afterWidth.rest format := by
  rw [precisionReaders]
  cases format with
  | nil => rfl
  | cons ch rest =>
      rw [peek, List.headD_cons]
      split
      next hch =>
        subst hch
        rw [FormatField.rest_of_step_ne rfl (by decide)]
        exact number_eq_rest endReaders_eq_rest (fun _ _ _ => rfl) fun _ => rfl
      next hch =>
        have hstep : FormatField.afterWidth.step ch = FormatField.afterPrecision.step ch :=
          if_neg hch
        have hsame : FormatField.afterWidth.rest (ch :: rest) =
            FormatField.afterPrecision.rest (ch :: rest) := by
          rw [FormatField.rest, FormatField.rest, hstep]
        rw [hsame, ← endReaders_eq_rest, consReaders]
        simp

/-- Where a specification ends and how many arguments it reads. -/
theorem directiveReaders_eq_rest (format : List Char) :
    (directiveReaders format).map counted = FormatField.flags.rest format := by
  have hskip : FormatField.flags.rest format = FormatField.flags.rest (skipFlags format) := by
    induction format with
    | nil => rfl
    | cons ch rest ih =>
        rw [skipFlags, List.dropWhile_cons]
        split
        next hch =>
          have hne : ch ≠ '*' := by
            rintro rfl
            exact absurd hch (by decide)
          have hstep : FormatField.flags.step ch = some .flags := if_pos hch
          rw [FormatField.rest_of_step_ne hstep hne]
          exact ih
        next => rfl
  rw [hskip, directiveReaders]
  refine @number_eq_rest .flags .width .afterWidth _ _ precision_eq_rest (fun ch rest heq => ?_)
    fun _ => rfl
  have hflag : isFlag ch = false := by
    have hhead := List.head?_dropWhile_not isFlag format
    rw [show List.dropWhile isFlag format = ch :: rest from heq] at hhead
    simpa using hhead
  rw [FormatField.step, hflag, if_neg Bool.false_ne_true]
  rfl

/-- The readers of a format are as many as its scan counts, and there are none if it ends
inside a specification. -/
theorem formatReaders_eq_scan (format : List Char) :
    (formatReaders format).map List.length =
      if FormatState.after none format = none then some (FormatState.count none format)
      else none := by
  induction hn : format.length using Nat.strongRecOn generalizing format with
  | ind n ih =>
      cases format with
      | nil =>
          rw [formatReaders]
          rfl
      | cons ch format =>
          by_cases hch : ch = '%'
          · subst hch
            have hscan := @FormatField.count_after .flags format
            rw [formatReaders_percent]
            have hrest := directiveReaders_eq_rest format
            cases hd : directiveReaders format with
            | none =>
                rw [hd, Option.map_none] at hrest
                rw [← hrest] at hscan
                have hne : FormatState.after none ('%' :: format) ≠ none :=
                  Option.isSome_iff_ne_none.mp hscan
                rw [if_neg hne]
                rfl
            | some r =>
                have hlt := length_directiveReaders hd
                rw [hd, Option.map_some] at hrest
                rw [← hrest] at hscan
                obtain ⟨hafter, hcount⟩ := hscan
                have hafter' : FormatState.after none ('%' :: format) =
                    FormatState.after none r.2 := hafter
                have hcount' : FormatState.count none ('%' :: format) =
                    r.1.length + FormatState.count none r.2 := by
                  rw [FormatState.count, FormatState.reads, Nat.zero_add]
                  exact hcount
                have hih := ih r.2.length (by simp only [List.length_cons] at hn; omega) r.2 rfl
                rw [hafter', hcount', Option.bind_some, Option.map_map]
                have hlen : (List.length ∘ fun rs => r.1 ++ rs) =
                    (fun k => r.1.length + k) ∘ (List.length : List Reader → Nat) := by
                  funext rs
                  exact List.length_append
                rw [hlen, ← Option.map_map, hih]
                split <;> rfl
          · have hlt : format.length < n := by
              simp only [List.length_cons] at hn
              omega
            rw [formatReaders_of_ne hch, ih format.length hlt format rfl]
            simp [FormatState.count, FormatState.reads, FormatState.next, hch]

/-! ## How many records are written -/

/-- `LORE_THUNK_VARG_MAX`, under the configured one. -/
def LORE_THUNK_VARG_MAX (config : Option Nat) : Nat := config.getD 64

/-- Where the walk comes to an end it writes a record for each argument that the format
reads and one behind them. -/
theorem length_of_mpVsnprintf {rd : Readers} {format : List Char} {ap : List Value}
    {out : List CVargEntry} (h : mpVsnprintf rd format ap = some out) :
    FormatState.after none format = none ∧
      out.length = FormatState.count none format + 1 := by
  obtain ⟨es, hes, rfl⟩ := Option.map_eq_some_iff.mp h
  rw [walkFormat_eq rd format _ (Nat.le_refl _)] at hes
  obtain ⟨rs, hrs, hes⟩ := Option.bind_eq_some_iff.mp hes
  obtain ⟨⟨es', ap'⟩, hread, rfl⟩ := Option.map_eq_some_iff.mp hes
  have hscan := formatReaders_eq_scan format
  rw [hrs, Option.map_some] at hscan
  split at hscan
  next hafter =>
    refine ⟨hafter, ?_⟩
    rw [List.length_append, length_of_readAll hread, Option.some.inj hscan]
    rfl
  next => exact nomatch hscan

/-- The readers of the walker for a style. -/
def FormatStyle.readers : FormatStyle → Readers
  | .printF => printfReaders
  | .scanF => scanfReaders

theorem extract_eq (style : FormatStyle) (format : List Char) (ap : List Value) :
    extract style format ap = (mpVsnprintf style.readers format ap).bind fun out =>
      (sentinelIndex out).map fun count => (count, out) := by
  cases style with
  | printF =>
      simp only [extract, FormatStyle.readers, Option.bind_eq_bind, Option.map_eq_bind]
      rfl
  | scanF =>
      simp only [extract, FormatStyle.readers, Option.bind_eq_bind, Option.map_eq_bind]
      rfl

/-- The records of a call fit into the array of its Entry exactly if the format reads
fewer arguments than the array has places. -/
theorem records_fit_iff (style : FormatStyle) (config : Option Nat) {format : List Char}
    {ap : List Value} {count : Nat} {out : List CVargEntry}
    (h : extract style format ap = some (count, out)) :
    out.length ≤ LORE_THUNK_VARG_MAX config ↔
      FormatState.count none format < LORE_THUNK_VARG_MAX config := by
  rw [extract_eq] at h
  obtain ⟨out', hwalk, hcount⟩ := Option.bind_eq_some_iff.mp h
  obtain ⟨count', -, heq⟩ := Option.map_eq_some_iff.mp hcount
  cases heq
  rw [(length_of_mpVsnprintf hwalk).2]
  exact Nat.add_one_le_iff

theorem records_fit_decimal :
    [CVargEntry.mk .int 7, terminator].length ≤ LORE_THUNK_VARG_MAX none ↔
      FormatState.count none "%d".toList < LORE_THUNK_VARG_MAX none :=
  records_fit_iff .printF none
    (show extract .printF "%d".toList [⟨.int, 7⟩] = some (1, [.mk .int 7, terminator]) by decide)

/-- `%d`. -/
def decimal : Piece := .directive ⟨[], none, none, none, .d, Conversion.allows_none .d⟩

/-- So many conversions are recorded, one by one. -/
theorem extract_decimals (n : Nat) :
    extract .printF (render (List.replicate n decimal)) (List.replicate n ⟨.int, 0⟩) =
      some (n, List.replicate n (CVargEntry.mk .int 0) ++ [terminator]) := by
  have hreaders : (List.replicate n decimal).flatMap Piece.readers = List.replicate n .int := by
    induction n with
    | zero => rfl
    | succ n ih =>
        rw [List.replicate_succ, List.flatMap_cons, ih, List.replicate_succ]
        rfl
  have hread : readAll printfReaders (List.replicate n .int) (List.replicate n ⟨.int, 0⟩) =
      some (List.replicate n (CVargEntry.mk .int 0), []) := by
    clear hreaders
    induction n with
    | zero => rfl
    | succ n ih =>
        have hfirst : vaArg Reader.int.type (⟨.int, 0⟩ :: List.replicate n ⟨.int, 0⟩) =
            some (⟨.int, 0⟩, List.replicate n ⟨.int, 0⟩) := rfl
        rw [List.replicate_succ, List.replicate_succ, List.replicate_succ, readAll,
          show printfReaders Reader.int = Reader.int from rfl, hfirst]
        simp only [Option.bind_eq_bind, Option.bind_some]
        rw [ih]
        rfl
  have hrecords : ∀ e ∈ List.replicate n (CVargEntry.mk .int 0), e.type ≠ .void := by
    intro e he
    rw [List.eq_of_mem_replicate he]
    decide
  have hcount := sentinelIndex_append hrecords 0 []
  rw [List.length_replicate] at hcount
  rw [extract_eq, mpVsnprintf, FormatStyle.readers, walkFormat_render _ _ _ (Nat.le_refl _),
    hreaders, hread, Option.map_some, Option.map_some, Option.bind_some]
  show (sentinelIndex (List.replicate n (CVargEntry.mk .int 0) ++ [⟨.void, 0⟩])).map _ = _
  rw [hcount]
  rfl

/-- The last record of a call with 64 conversions is written behind the array. -/
theorem not_records_fit :
    ∃ (format : List Char) (ap : List Value) (count : Nat) (out : List CVargEntry),
      extract .printF format ap = some (count, out) ∧ LORE_THUNK_VARG_MAX none < out.length := by
  refine ⟨_, _, 64, _, extract_decimals 64, ?_⟩
  rw [List.length_append, List.length_replicate]
  decide

end Lorelei.Variadic
