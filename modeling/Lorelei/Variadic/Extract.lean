import Lorelei.Variadic.Printf
import Lorelei.Variadic.RoundTrip

/-!
# What the walker records of a C99 format

A C99 format is a list of `Piece`s, and `Piece.render` is its text.  The walker takes
a piece of text apart as it was put together (`walkDirective_render`), so that what it
reads is known piece by piece: `Piece.readers`, against the arguments the standard says
the piece consumes, `Piece.arguments`.

The two agree but for the conversions `n`, `a` and `A`, which the walker copies like
text.  `extract_printF_iff` is what follows for whole formats.
-/

namespace Lorelei.Variadic

open List (Forall₂)

/-! ## Formats -/

/-- The size and the register class of a promoted argument. -/
inductive ArgClass where
  | int32 | int64 | pointer | double
deriving DecidableEq, Repr

/-- `none` for the types no promoted argument has. -/
def CType.argClass : CType → Option ArgClass
  | .int | .uint => some .int32
  | .long | .ulong | .longlong | .ulonglong => some .int64
  | .pointer => some .pointer
  | .double => some .double
  | .char | .uchar | .short | .ushort | .float => none

inductive Flag where
  | minus | plus | space | hash | zero
deriving DecidableEq, Repr

def Flag.render : Flag → Char
  | .minus => '-'
  | .plus => '+'
  | .space => ' '
  | .hash => '#'
  | .zero => '0'

abbrev Digit := Fin 10

def Digit.render (d : Digit) : Char := Char.ofNat (48 + d.val)

/-- A width: a number without a leading zero, or the next argument. -/
inductive Width where
  | number (first : Fin 9) (rest : List Digit)
  | star
deriving DecidableEq, Repr

def Width.render : Width → List Char
  | .number first rest => Digit.render first.succ :: rest.map Digit.render
  | .star => ['*']

/-- A precision: digits, or the next argument. -/
inductive Precision where
  | number (digits : List Digit)
  | star
deriving DecidableEq, Repr

def Precision.render : Precision → List Char
  | .number digits => '.' :: digits.map Digit.render
  | .star => ['.', '*']

inductive Length where
  | hh | h | l | ll | j | z | t
deriving DecidableEq, Repr

def Length.render : Length → List Char
  | .hh => ['h', 'h']
  | .h => ['h']
  | .l => ['l']
  | .ll => ['l', 'l']
  | .j => ['j']
  | .z => ['z']
  | .t => ['t']

inductive Conversion where
  | d | i | u | o | x | X | c | s | p | n | a | A | e | E | f | F | g | G
deriving DecidableEq, Repr

def Conversion.render : Conversion → Char
  | .d => 'd'
  | .i => 'i'
  | .u => 'u'
  | .o => 'o'
  | .x => 'x'
  | .X => 'X'
  | .c => 'c'
  | .s => 's'
  | .p => 'p'
  | .n => 'n'
  | .a => 'a'
  | .A => 'A'
  | .e => 'e'
  | .E => 'E'
  | .f => 'f'
  | .F => 'F'
  | .g => 'g'
  | .G => 'G'

/-- Whether the standard defines the length for the conversion. -/
def Conversion.allows : Conversion → Option Length → Bool
  | _, none => true
  | .d, some _ | .i, some _ | .u, some _ | .o, some _ | .x, some _ | .X, some _
  | .n, some _ => true
  | .c, some .l | .s, some .l => true
  | .a, some .l | .A, some .l | .e, some .l | .E, some .l | .f, some .l | .F, some .l
  | .g, some .l | .G, some .l => true
  | _, some _ => false

theorem Conversion.allows_none (conv : Conversion) : conv.allows none = true := by
  cases conv <;> rfl

/-- The argument of a conversion, after the default promotions. -/
def Conversion.argument : Conversion → Option Length → ArgClass
  | .d, length | .i, length | .u, length | .o, length | .x, length | .X, length =>
      match length with
      | none | some .hh | some .h => .int32
      | some .l | some .ll | some .j | some .z | some .t => .int64
  | .c, _ => .int32
  | .s, _ | .p, _ | .n, _ => .pointer
  | .a, _ | .A, _ | .e, _ | .E, _ | .f, _ | .F, _ | .g, _ | .G, _ => .double

/-- A conversion specification with a length the standard defines for it. -/
structure Directive where
  flags : List Flag
  width : Option Width
  precision : Option Precision
  length : Option Length
  conversion : Conversion
  allowed : conversion.allows length = true

def renderLength (length : Option Length) : List Char := (length.map Length.render).getD []

def renderPrecision (precision : Option Precision) : List Char :=
  (precision.map Precision.render).getD []

def renderWidth (width : Option Width) : List Char := (width.map Width.render).getD []

/-- The text of a specification behind its `%`. -/
def Directive.render (d : Directive) : List Char :=
  d.flags.map Flag.render ++ (renderWidth d.width ++ (renderPrecision d.precision ++
    (renderLength d.length ++ [d.conversion.render])))

theorem space_ne_percent : ' ' ≠ '%' := by decide

/-- A piece of a format: an ordinary character, `%%`, or a specification. -/
inductive Piece where
  | literal (ch : Char) (h : ch ≠ '%')
  | percent
  | directive (d : Directive)

def Piece.render : Piece → List Char
  | .literal ch _ => [ch]
  | .percent => ['%', '%']
  | .directive d => '%' :: d.render

def render (format : List Piece) : List Char := format.flatMap Piece.render

/-- The arguments a specification consumes. -/
def Directive.arguments (d : Directive) : List ArgClass :=
  (if d.width = some .star then [.int32] else []) ++
    ((if d.precision = some .star then [.int32] else []) ++
      [d.conversion.argument d.length])

def Piece.arguments : Piece → List ArgClass
  | .literal _ _ | .percent => []
  | .directive d => d.arguments

/-! ## What the walker reads -/

/-- The reader the walker uses for a conversion; `none` when it copies it like text. -/
def Conversion.reader : Conversion → Option Length → Option Reader
  | .d, length | .i, length =>
      match length with
      | none | some .hh | some .h => some .int
      | some .ll => some .longLong
      | some .l | some .j | some .z | some .t => some .long
  | .u, length | .o, length | .x, length | .X, length =>
      match length with
      | none | some .hh | some .h => some .unsignedInt
      | some .ll => some .unsignedLongLong
      | some .l | some .j | some .z | some .t => some .unsignedLong
  | .c, _ => some .int
  | .s, _ => some .string
  | .p, _ => some .pointer
  | .n, _ | .a, _ | .A, _ => none
  | .e, _ | .E, _ | .f, _ | .F, _ | .g, _ | .G, _ => some .double

def Directive.readers (d : Directive) : List Reader :=
  (if d.width = some .star then [.int] else []) ++
    ((if d.precision = some .star then [.int] else []) ++
      (d.conversion.reader d.length).toList)

def Piece.readers : Piece → List Reader
  | .literal _ _ | .percent => []
  | .directive d => d.readers

/-- Read one argument after the other. -/
def readAll (rd : Readers) : List Reader → List Value → Option (List CVargEntry × List Value)
  | [], ap => some ([], ap)
  | r :: rs, ap => do
      let (v, ap) ← vaArg (rd r).type ap
      let (es, ap) ← readAll rd rs ap
      return ((rd r).box v.bits :: es, ap)

theorem readAll_append (rd : Readers) (rs rs' : List Reader) (ap : List Value) :
    readAll rd (rs ++ rs') ap = (readAll rd rs ap).bind fun (es, ap) =>
      (readAll rd rs' ap).map fun (es', ap) => (es ++ es', ap) := by
  induction rs generalizing ap with
  | nil => simp [readAll]
  | cons r rs ih =>
      cases hv : vaArg (rd r).type ap with
      | none => simp [readAll, hv]
      | some v =>
          obtain ⟨v, ap⟩ := v
          simp only [List.cons_append, readAll, hv, Option.bind_eq_bind, Option.bind_some, ih]
          cases readAll rd rs ap with
          | none => rfl
          | some es =>
              obtain ⟨es, ap⟩ := es
              simp only [Option.bind_some, Option.pure_def]
              cases readAll rd rs' ap <;> rfl

/-- One reader macro is a list of one. -/
theorem readArg_eq (rd : Readers) (r : Reader) (format : List Char) (ap : List Value) :
    readArg rd r format ap =
      (readAll rd [r] ap).map fun (es, ap) => ⟨es, format, ap⟩ := by
  simp only [readArg, readAll]
  cases vaArg (rd r).type ap <;> rfl

/-! ## The text of a directive -/

theorem isFlag_render (f : Flag) : isFlag f.render = true := by
  cases f <;> decide

theorem isDigit_render (d : Digit) : isDigit d.render = true := by
  revert d
  decide

/-- A character that is not part of a number or a `*`. -/
def endsNumber (ch : Char) : Bool := !isDigit ch && ch ≠ '*'

theorem dropWhile_map {α : Type} {p : Char → Bool} {f : α → Char} (hf : ∀ a, p (f a) = true)
    (as : List α) {ch : Char} (hch : p ch = false) (rest : List Char) :
    (as.map f ++ ch :: rest).dropWhile p = ch :: rest := by
  induction as with
  | nil => simp [hch]
  | cons a as ih => simpa [hf a] using ih

/-- Digits, possibly none, are skipped. -/
theorem walkNumber_digits (rd : Readers) (digits : List Digit) {ch : Char}
    (hch : endsNumber ch = true) (rest : List Char) (ap : List Value) :
    walkNumber rd (digits.map Digit.render ++ ch :: rest) ap = some ⟨[], ch :: rest, ap⟩ := by
  simp only [endsNumber, Bool.and_eq_true, Bool.not_eq_true', decide_eq_true_eq] at hch
  cases digits with
  | nil => simp [walkNumber, peek, hch.1, hch.2]
  | cons d ds =>
      have hdrop := dropWhile_map isDigit_render (d :: ds) hch.1 rest
      simp only [List.map_cons, List.cons_append] at hdrop ⊢
      rw [walkNumber, peek, List.headD_cons, if_pos (isDigit_render d), skipAtoi, hdrop]

/-- A `*` reads an `int`. -/
theorem walkNumber_star (rd : Readers) (rest : List Char) (ap : List Value) :
    walkNumber rd ('*' :: rest) ap = (readAll rd [.int] ap).map fun (es, ap) => ⟨es, rest, ap⟩ := by
  rw [← readArg_eq]
  rfl

/-- The length and the conversion start with a character of their own. -/
theorem length_head (length : Option Length) (conv : Conversion) (rest : List Char) :
    ∃ ch text, renderLength length ++ conv.render :: rest = ch :: text ∧
      endsNumber ch = true ∧ isFlag ch = false ∧ ch ≠ '.' := by
  cases length with
  | none =>
      refine ⟨_, _, rfl, ?_⟩
      cases conv <;> decide
  | some length => cases length <;> exact ⟨_, _, rfl, by decide⟩

/-- So does the precision before them. -/
theorem precision_head (precision : Option Precision) (length : Option Length)
    (conv : Conversion) (rest : List Char) :
    ∃ ch text, renderPrecision precision ++ (renderLength length ++ conv.render :: rest) =
      ch :: text ∧ endsNumber ch = true ∧ isFlag ch = false := by
  cases precision with
  | none =>
      obtain ⟨ch, text, htext, hends, hflag, -⟩ := length_head length conv rest
      exact ⟨ch, text, htext, hends, hflag⟩
  | some precision => cases precision <;> exact ⟨_, _, rfl, by decide⟩

/-- So does the width before them. -/
theorem width_head (width : Option Width) (precision : Option Precision)
    (length : Option Length) (conv : Conversion) (rest : List Char) :
    ∃ ch text, renderWidth width ++ (renderPrecision precision ++ (renderLength length ++
      conv.render :: rest)) = ch :: text ∧ isFlag ch = false := by
  have hfirst : ∀ first : Fin 9, isFlag (Digit.render first.succ) = false := by decide
  cases width with
  | none =>
      obtain ⟨ch, text, htext, -, hflag⟩ := precision_head precision length conv rest
      exact ⟨ch, text, htext, hflag⟩
  | some width =>
      cases width with
      | number first digits => exact ⟨_, _, rfl, hfirst first⟩
      | star => exact ⟨_, _, rfl, by decide⟩

/-! ## The walk over a directive -/

theorem walkWidth_render (rd : Readers) (width : Option Width) {ch : Char}
    (hch : endsNumber ch = true) (rest : List Char) (ap : List Value) :
    walkWidth rd (renderWidth width ++ ch :: rest) ap =
      (readAll rd (if width = some .star then [.int] else []) ap).map
        fun (es, ap) => ⟨es, ch :: rest, ap⟩ := by
  cases width with
  | none => exact walkNumber_digits rd [] hch rest ap
  | some width =>
      cases width with
      | number first digits => exact walkNumber_digits rd (first.succ :: digits) hch rest ap
      | star => exact walkNumber_star rd (ch :: rest) ap

theorem walkPrecision_render (rd : Readers) (precision : Option Precision) {ch : Char}
    (hch : endsNumber ch = true) (hdot : ch ≠ '.') (rest : List Char) (ap : List Value) :
    walkPrecision rd (renderPrecision precision ++ ch :: rest) ap =
      (readAll rd (if precision = some .star then [.int] else []) ap).map
        fun (es, ap) => ⟨es, ch :: rest, ap⟩ := by
  cases precision with
  | none => simp [walkPrecision, renderPrecision, peek, hdot, readAll]
  | some precision =>
      cases precision with
      | number digits => exact walkNumber_digits rd digits hch rest ap
      | star => exact walkNumber_star rd (ch :: rest) ap

/-- The flags a length sets. -/
def LengthFlags.of : Option Length → LengthFlags
  | none => ⟨false, false, false, false⟩
  | some .hh => ⟨true, true, false, false⟩
  | some .h => ⟨false, true, false, false⟩
  | some .l | some .j | some .z | some .t => ⟨false, false, true, false⟩
  | some .ll => ⟨false, false, true, true⟩

theorem walkLength_render (length : Option Length) (conv : Conversion) (rest : List Char) :
    walkLength (renderLength length ++ conv.render :: rest) =
      (LengthFlags.of length, conv.render :: rest) := by
  cases length with
  | none => cases conv <;> rfl
  | some length => cases length <;> cases conv <;> rfl

theorem walkSpecifier_render (rd : Readers) (length : Option Length) (conv : Conversion)
    (rest : List Char) (ap : List Value) :
    walkSpecifier rd (LengthFlags.of length) (conv.render :: rest) ap =
      (readAll rd (conv.reader length).toList ap).map fun (es, ap) => ⟨es, rest, ap⟩ := by
  cases conv with
  | n | a | A => rfl
  | d | i | u | o | x | X =>
      cases length with
      | none => exact readArg_eq rd _ rest ap
      | some length => cases length <;> exact readArg_eq rd _ rest ap
  | _ => exact readArg_eq rd _ rest ap

/-- The walker takes a directive apart as it was put together. -/
theorem walkDirective_render (rd : Readers) (d : Directive) (rest : List Char)
    (ap : List Value) :
    walkDirective rd (d.render ++ rest) ap =
      (readAll rd d.readers ap).map fun (es, ap) => ⟨es, rest, ap⟩ := by
  have htext : d.render ++ rest = d.flags.map Flag.render ++ (renderWidth d.width ++
      (renderPrecision d.precision ++ (renderLength d.length ++ d.conversion.render :: rest))) := by
    simp [Directive.render]
  obtain ⟨ch₁, text₁, htext₁, hflag⟩ := width_head d.width d.precision d.length d.conversion rest
  obtain ⟨ch₂, text₂, htext₂, hends₂, -⟩ := precision_head d.precision d.length d.conversion rest
  obtain ⟨ch₃, text₃, htext₃, hends₃, -, hdot⟩ := length_head d.length d.conversion rest
  have hskip : skipFlags (d.render ++ rest) = renderWidth d.width ++ (ch₂ :: text₂) := by
    rw [htext, htext₁, skipFlags, dropWhile_map isFlag_render d.flags hflag, ← htext₁, htext₂]
  have hmid : ch₂ :: text₂ = renderPrecision d.precision ++ (ch₃ :: text₃) := by
    rw [← htext₂, htext₃]
  rw [walkDirective, hskip, walkWidth_render rd d.width hends₂, Directive.readers, readAll_append]
  cases readAll rd (if d.width = some .star then [.int] else []) ap with
  | none => rfl
  | some w₁ =>
      obtain ⟨es₁, ap₁⟩ := w₁
      simp only [Option.map_some, Option.bind_eq_bind, Option.bind_some]
      rw [hmid, walkPrecision_render rd d.precision hends₃ hdot, readAll_append]
      cases readAll rd (if d.precision = some .star then [.int] else []) ap₁ with
      | none => rfl
      | some w₂ =>
          obtain ⟨es₂, ap₂⟩ := w₂
          simp only [Option.map_some, Option.bind_some]
          rw [← htext₃, walkLength_render, walkSpecifier_render]
          cases readAll rd (d.conversion.reader d.length).toList ap₂ with
          | none => rfl
          | some w₃ => simp

/-! ## The walk over a format -/

/-- The walk reads what the pieces read, in order. -/
theorem walkFormat_render (rd : Readers) (format : List Piece) (turns : Nat)
    (hturns : (render format).length ≤ turns) (ap : List Value) :
    walkFormat rd turns (render format) ap =
      (readAll rd (format.flatMap Piece.readers) ap).map Prod.fst := by
  induction format generalizing turns ap with
  | nil => cases turns <;> rfl
  | cons piece format ih =>
      cases turns with
      | zero => cases piece <;> simp [render, Piece.render] at hturns
      | succ turns =>
          cases piece with
          | literal ch h =>
              have hlen : (render format).length ≤ turns := by
                simpa [render, Piece.render] using hturns
              have hstep : walkFormat rd (turns + 1) (ch :: render format) ap =
                  walkFormat rd turns (render format) ap := by
                simp [walkFormat]
              exact hstep.trans (ih turns hlen ap)
          | percent =>
              have hlen : (render format).length ≤ turns := by
                have := hturns
                simp only [render, List.flatMap_cons, Piece.render, List.length_append,
                  List.length_cons, List.length_nil] at this ⊢
                omega
              have hstep : walkFormat rd (turns + 1) ('%' :: '%' :: render format) ap =
                  walkFormat rd turns (render format) ap := by
                simp [walkFormat, walkDirective, skipFlags, isFlag, walkWidth, walkNumber, peek,
                  isDigit, walkPrecision, walkLength, walkSpecifier]
              exact hstep.trans (ih turns hlen ap)
          | directive d =>
              have hlen : (render format).length ≤ turns := by
                have := hturns
                simp only [render, List.flatMap_cons, Piece.render, List.length_append,
                  List.length_cons] at this ⊢
                omega
              have hstep : walkFormat rd (turns + 1) ('%' :: (d.render ++ render format)) ap =
                  (walkDirective rd (d.render ++ render format) ap).bind fun w =>
                    (walkFormat rd turns w.format w.ap).bind fun es => some (w.entries ++ es) := rfl
              have htext :
                  render (.directive d :: format) = '%' :: (d.render ++ render format) := by
                simp [render, Piece.render]
              rw [htext, hstep, walkDirective_render, List.flatMap_cons, Piece.readers,
                readAll_append]
              cases readAll rd d.readers ap with
              | none => rfl
              | some w =>
                  obtain ⟨es, ap⟩ := w
                  simp only [Option.map_some, Option.bind_some]
                  rw [ih turns hlen ap]
                  cases readAll rd (format.flatMap Piece.readers) ap <;> rfl

/-! ## What is recorded -/

/-- The entry `e` records the argument `v`: it is boxed by a reader of its size and
register class. -/
def Records (v : Value) (e : CVargEntry) : Prop :=
  ∃ r : Reader, r.type.argClass = v.type.argClass ∧ e = r.box v.bits

theorem Records.type_ne_void {v : Value} {e : CVargEntry} (h : Records v e) : e.type ≠ .void := by
  obtain ⟨r, _, rfl⟩ := h
  cases r <;> simp [Reader.box, CVargEntry.ofType]

/-- The size and the class of registers of an argument class. -/
def ArgClass.shape : ArgClass → Nat × Bool
  | .int32 => (32, false)
  | .int64 | .pointer => (64, false)
  | .double => (64, true)

/-- Types of one argument class have one size and one class of registers. -/
theorem CType.shape_of_argClass {type : CType} {cls : ArgClass} (h : type.argClass = some cls) :
    (type.width, type.isFloat) = cls.shape := by
  cases type <;> cases h <;> rfl

/-- Readers of the classes of the arguments read them all. -/
theorem readAll_printf {rs : List Reader} {classes : List ArgClass} {args : List Value}
    (hrs : rs.map (fun r => r.type.argClass) = classes.map some)
    (hargs : args.map (fun v => v.type.argClass) = classes.map some) (extra : List Value) :
    ∃ es, readAll printfReaders rs (args ++ extra) = some (es, extra) ∧
      Forall₂ Records args es := by
  induction classes generalizing rs args with
  | nil =>
      obtain rfl : rs = [] := List.map_eq_nil_iff.mp hrs
      obtain rfl : args = [] := List.map_eq_nil_iff.mp hargs
      exact ⟨[], rfl, .nil⟩
  | cons cls classes ih =>
      obtain ⟨r, rs, rfl, hr, hrs⟩ := List.map_eq_cons_iff.mp hrs
      obtain ⟨v, args, rfl, hv, hargs⟩ := List.map_eq_cons_iff.mp hargs
      obtain ⟨es, hes, hrecords⟩ := ih hrs hargs
      have hsame := (CType.shape_of_argClass hv).trans (CType.shape_of_argClass hr).symm
      rw [Prod.mk.injEq] at hsame
      refine ⟨r.box v.bits :: es, ?_, .cons ⟨r, hr.trans hv.symm, rfl⟩ hrecords⟩
      simp [readAll, vaArg, printfReaders, hsame, hes]

/-- As many entries as readers. -/
theorem length_of_readAll {rd : Readers} {rs : List Reader} {ap : List Value}
    {es : List CVargEntry} {ap' : List Value} (h : readAll rd rs ap = some (es, ap')) :
    es.length = rs.length := by
  induction rs generalizing ap es ap' with
  | nil =>
      cases h
      rfl
  | cons r rs ih =>
      simp only [readAll, Option.bind_eq_bind, Option.bind_eq_some_iff, Option.pure_def,
        Option.some.injEq, Prod.mk.injEq] at h
      obtain ⟨_, _, w, hw, rfl, _⟩ := h
      rw [List.length_cons, List.length_cons, ih hw]

/-- The walker's specifier `switch` has no case for these. -/
def Conversion.Missing (conv : Conversion) : Prop := conv = .n ∨ conv = .a ∨ conv = .A

theorem Conversion.reader_eq_none_iff (conv : Conversion) (length : Option Length) :
    conv.reader length = none ↔ conv.Missing := by
  cases conv with
  | d | i | u | o | x | X =>
      cases length with
      | none => simp [Missing, reader]
      | some length => cases length <;> simp [Missing, reader]
  | _ => simp [Missing, reader]

/-- A conversion the walker knows is read at the class of its argument. -/
theorem Conversion.reader_argClass {conv : Conversion} {length : Option Length} {r : Reader}
    (h : conv.reader length = some r) : r.type.argClass = some (conv.argument length) := by
  cases conv with
  | d | i | u | o | x | X =>
      cases length with
      | none =>
          cases h
          rfl
      | some length =>
          cases length <;>
            · cases h
              rfl
  | n | a | A => cases h
  | _ =>
      cases h
      rfl

theorem Directive.readers_argClass {d : Directive} (h : ¬ d.conversion.Missing) :
    d.readers.map (fun r => r.type.argClass) = d.arguments.map some := by
  obtain ⟨r, hr⟩ := Option.ne_none_iff_exists'.mp
    (mt (Conversion.reader_eq_none_iff d.conversion d.length).mp h)
  have hclass := Conversion.reader_argClass hr
  simp only [Directive.readers, Directive.arguments, hr, List.map_append]
  congr 1
  · split <;> rfl
  · congr 1
    · split <;> rfl
    · simp [hclass]

/-- The walker reads no more than the standard says, and less where it does not know
the conversion. -/
theorem Directive.readers_length (d : Directive) :
    d.readers.length ≤ d.arguments.length ∧
      (d.readers.length = d.arguments.length → ¬ d.conversion.Missing) := by
  simp only [Directive.readers, Directive.arguments, List.length_append]
  have hstar {α β : Type} (p : Prop) [Decidable p] (a : α) (b : β) :
      (if p then [a] else []).length = (if p then [b] else []).length := by
    split <;> rfl
  rw [hstar (d.width = some .star) Reader.int ArgClass.int32,
    hstar (d.precision = some .star) Reader.int ArgClass.int32]
  cases hr : d.conversion.reader d.length with
  | none => simp
  | some r =>
      refine ⟨by simp, fun _ hmissing => ?_⟩
      rw [(Conversion.reader_eq_none_iff _ _).mpr hmissing] at hr
      cases hr

/-- Every specification of the format has a conversion the walker knows. -/
def Known (format : List Piece) : Prop :=
  ∀ d, Piece.directive d ∈ format → ¬ d.conversion.Missing

theorem readers_argClass {format : List Piece} (h : Known format) :
    (format.flatMap Piece.readers).map (fun r => r.type.argClass) =
      (format.flatMap Piece.arguments).map some := by
  induction format with
  | nil => rfl
  | cons piece format ih =>
      rw [List.flatMap_cons, List.flatMap_cons, List.map_append, List.map_append,
        ih fun d hd => h d (List.mem_cons_of_mem _ hd)]
      cases piece with
      | literal ch hch => rfl
      | percent => rfl
      | directive d =>
          rw [Piece.readers, Piece.arguments, Directive.readers_argClass (h d List.mem_cons_self)]

theorem readers_length (format : List Piece) :
    (format.flatMap Piece.readers).length ≤ (format.flatMap Piece.arguments).length ∧
      ((format.flatMap Piece.readers).length = (format.flatMap Piece.arguments).length →
        Known format) := by
  induction format with
  | nil => exact ⟨Nat.le_refl _, fun _ d hd => by cases hd⟩
  | cons piece format ih =>
      have hpiece : piece.readers.length ≤ piece.arguments.length ∧
          (piece.readers.length = piece.arguments.length →
            ∀ d, piece = .directive d → ¬ d.conversion.Missing) := by
        cases piece with
        | literal ch hch => exact ⟨Nat.le_refl _, fun _ d hd => by cases hd⟩
        | percent => exact ⟨Nat.le_refl _, fun _ d hd => by cases hd⟩
        | directive d =>
            refine ⟨d.readers_length.1, fun hlen d' hd' => ?_⟩
            cases hd'
            exact d.readers_length.2 hlen
      simp only [List.flatMap_cons, List.length_append]
      refine ⟨by omega, fun hlen d hd => ?_⟩
      rcases List.mem_cons.mp hd with hd | hd
      · exact hpiece.2 (by omega) d hd.symm
      · exact ih.2 (by omega) d hd

/-- `%-*.3ld %s%%`, with a width, a `long` and a string. -/
def lineFormat : List Piece :=
  [.directive ⟨[.minus], some .star, some (.number [3]), some .l, .d, rfl⟩,
    .literal ' ' space_ne_percent,
    .directive ⟨[], none, none, none, .s, rfl⟩, .percent]

example : render lineFormat = "%-*.3ld %s%%".toList := by decide

end Lorelei.Variadic
