import Lorelei.Variadic.Adaptor

/-!
# The format walkers

`mp_vsnprintf` and `mp_vsnprintf_scanf` are one function compiled twice: it walks a
format, reads an argument with a macro of `va_type.h` wherever the formatter needs
one, and boxes what it has read.  `VariadicAdaptor::extract` runs it for the boxes
only, with an output function that discards.

* The two compilations differ in the type each macro reads, which is a parameter
  (`Readers`).
* What only serves the output is left out: the text, the characters of string
  arguments, the padding, the values of width
  and precision and the flags that say how to print.  The flags that choose a macro
  are kept.
* A format is the characters before its terminator.  Reading an argument that is not
  there, or at another size or register class, is undefined, as is leaving the format
  behind its terminator: `none`.
-/

namespace Lorelei.Variadic

/-- `va_arg` at this type, on the arguments not yet read: the next one must have its
width and be in its class of registers. -/
def vaArg (type : CType) : List Value → Option (Value × List Value)
  | v :: ap =>
      if v.type.width = type.width ∧ v.type.isFloat = type.isFloat then some (v, ap) else none
  | [] => none

/-- What each reader macro reads and boxes. -/
abbrev Readers := Reader → Reader

/-- The readers of `mp_vsnprintf`. -/
def printfReaders : Readers := fun r => r

/-- The readers of `mp_vsnprintf_scanf`, under `MP_VA_CAPTURE_POINTERS`. -/
def scanfReaders : Readers
  | .string => .string
  | _ => .pointer

/-- What a part of the walk leaves: the entries it has boxed, the rest of the format and
the arguments not yet read. -/
structure Walk where
  entries : List CVargEntry
  format : List Char
  ap : List Value

/-- One reader macro. -/
def readArg (rd : Readers) (r : Reader) (format : List Char) (ap : List Value) : Option Walk :=
  (vaArg (rd r).type ap).map fun (v, ap) => ⟨[(rd r).box v.bits], format, ap⟩

/-- `*format`. -/
def peek (format : List Char) : Char := format.headD '\x00'

/-- `_is_digit`. -/
def isDigit (ch : Char) : Bool := '0' ≤ ch && ch ≤ '9'

/-- The cases of the flags `switch`. -/
def isFlag (ch : Char) : Bool := ch = '0' || ch = '-' || ch = '+' || ch = ' ' || ch = '#'

/-- The flags loop. -/
def skipFlags (format : List Char) : List Char := format.dropWhile isFlag

/-- `_atoi`, for what it does to `format`. -/
def skipAtoi (format : List Char) : List Char := format.dropWhile isDigit

/-- A number or a `*`, as in the width and the precision field. -/
def walkNumber (rd : Readers) (format : List Char) (ap : List Value) : Option Walk :=
  if isDigit (peek format) then some ⟨[], skipAtoi format, ap⟩
  else if peek format = '*' then readArg rd .int format.tail ap
  else some ⟨[], format, ap⟩

/-- The width field. -/
def walkWidth : Readers → List Char → List Value → Option Walk := walkNumber

/-- The precision field. -/
def walkPrecision (rd : Readers) (format : List Char) (ap : List Value) : Option Walk :=
  if peek format = '.' then walkNumber rd format.tail ap
  else some ⟨[], format, ap⟩

/-- The flags the length field sets. -/
structure LengthFlags where
  char : Bool
  short : Bool
  long : Bool
  longLong : Bool
deriving DecidableEq, Repr

/-- The length field; `long`, `ptrdiff_t`, `intmax_t` and `size_t` have one size. -/
def walkLength : List Char → LengthFlags × List Char
  | 'l' :: 'l' :: format => (⟨false, false, true, true⟩, format)
  | 'l' :: format => (⟨false, false, true, false⟩, format)
  | 'h' :: 'h' :: format => (⟨true, true, false, false⟩, format)
  | 'h' :: format => (⟨false, true, false, false⟩, format)
  | 't' :: format => (⟨false, false, true, false⟩, format)
  | 'j' :: format => (⟨false, false, true, false⟩, format)
  | 'z' :: format => (⟨false, false, true, false⟩, format)
  | format => (⟨false, false, false, false⟩, format)

/-- The specifier; the default case copies the character, whatever it is. -/
def walkSpecifier (rd : Readers) (flags : LengthFlags) (format : List Char) (ap : List Value) :
    Option Walk :=
  match format with
  | 'd' :: format | 'i' :: format =>
      if flags.longLong then readArg rd .longLong format ap
      else if flags.long then readArg rd .long format ap
      else readArg rd .int format ap
  | 'u' :: format | 'x' :: format | 'X' :: format | 'o' :: format | 'b' :: format =>
      if flags.longLong then readArg rd .unsignedLongLong format ap
      else if flags.long then readArg rd .unsignedLong format ap
      else readArg rd .unsignedInt format ap
  | 'f' :: format | 'F' :: format | 'e' :: format | 'E' :: format | 'g' :: format
  | 'G' :: format => readArg rd .double format ap
  | 'c' :: format => readArg rd .int format ap
  | 's' :: format => readArg rd .string format ap
  | 'p' :: format => readArg rd .pointer format ap
  | _ :: format => some ⟨[], format, ap⟩
  | [] => none

/-- What follows a `%`. -/
def walkDirective (rd : Readers) (format : List Char) (ap : List Value) : Option Walk := do
  let w₁ ← walkWidth rd (skipFlags format) ap
  let w₂ ← walkPrecision rd w₁.format w₁.ap
  let (flags, format) := walkLength w₂.format
  let w₃ ← walkSpecifier rd flags format w₂.ap
  return ⟨w₁.entries ++ w₂.entries ++ w₃.entries, w₃.format, w₃.ap⟩

/-- The loop over the format, for at most so many turns. -/
def walkFormat (rd : Readers) : Nat → List Char → List Value → Option (List CVargEntry)
  | _, [], _ => some []
  | 0, _ :: _, _ => none
  | turns + 1, '%' :: format, ap => do
      let w ← walkDirective rd format ap
      let entries ← walkFormat rd turns w.format w.ap
      return w.entries ++ entries
  | turns + 1, _ :: format, ap => walkFormat rd turns format ap

/-- The entry behind the last one. -/
def terminator : CVargEntry := ⟨.void, 0⟩

/-- `mp_vsnprintf` or `mp_vsnprintf_scanf`: the entries it writes.  Every turn of the loop
takes at least one character. -/
def mpVsnprintf (rd : Readers) (format : List Char) (ap : List Value) : Option (List CVargEntry) :=
  (walkFormat rd format.length format ap).map (· ++ [terminator])

/-- `VariadicAdaptor::FormatStyle`. -/
inductive FormatStyle where
  | printF | scanF
deriving DecidableEq, Repr

/-- `VariadicAdaptor::extract`: its return value, which counts the entries up to the
terminating one, and what it has written to `out`. -/
def extract (style : FormatStyle) (fmt : List Char) (ap : List Value) :
    Option (Nat × List CVargEntry) := do
  let out ← match style with
    | .printF => mpVsnprintf printfReaders fmt ap
    | .scanF => mpVsnprintf scanfReaders fmt ap
  let count ← sentinelIndex out
  return (count, out)

end Lorelei.Variadic
