import Lorelei.DLCall.ThunkDatabase
import Lorelei.Lib.SortedMap
import Mathlib.Data.List.Lex
import Mathlib.Data.String.Basic

/-!
# The JSON parser

`Json::parse`, without the strategy for comments. The position in the text is what is left
of it, and reading behind the end gives the NUL that a `std::string` has there. The value
of a number is left out: the database does not read one. A part of the parser returns the message of
`fail`, or its result and the rest of the text.

`char` is signed on some hosts and unsigned on others, which shows in the error messages.
-/

namespace Lorelei.Json11

open Support DLCall

def maxDepth : Nat := 200

/-- `str[i]`. -/
def peek (s : Str) : Char := s.headD '\x00'

/-- A `char` as an `int`. -/
def charValue (signed : Bool) (c : Char) : Int :=
  if signed ∧ 0x80 ≤ c.toNat then c.toNat - 0x100 else c.toNat

/-- `%d`. -/
def decimal (n : Int) : Str :=
  if n < 0 then '-' :: Nat.toDigits 10 n.natAbs else Nat.toDigits 10 n.natAbs

/-- `esc`. -/
def esc (signed : Bool) (c : Char) : Str :=
  if 0x20 ≤ c.toNat ∧ c.toNat ≤ 0x7f then
    "'".toList ++ c :: "' (".toList ++ decimal (charValue signed c) ++ ")".toList
  else "(".toList ++ decimal (charValue signed c) ++ ")".toList

def isWhitespace (c : Char) : Bool := c = ' ' || c = '\r' || c = '\n' || c = '\t'

/-- `consume_whitespace`. -/
def consumeWhitespace (s : Str) : Str := s.dropWhile isWhitespace

/-- `get_next_token`. -/
def getNextToken (s : Str) : Except Str (Char × Str) :=
  match consumeWhitespace s with
  | [] => .error "unexpected end of input".toList
  | c :: s => .ok (c, s)

/-! ## Strings -/

def byte (n : Nat) : Char := Char.ofNat n

/-- `encode_utf8`, of a code point. -/
def encodeUtf8 (pt : Nat) : Str :=
  if pt < 0x80 then [byte pt]
  else if pt < 0x800 then [byte (pt >>> 6 ||| 0xC0), byte (pt &&& 0x3F ||| 0x80)]
  else if pt < 0x10000 then
    [byte (pt >>> 12 ||| 0xE0), byte (pt >>> 6 &&& 0x3F ||| 0x80), byte (pt &&& 0x3F ||| 0x80)]
  else
    [byte (pt >>> 18 ||| 0xF0), byte (pt >>> 12 &&& 0x3F ||| 0x80),
      byte (pt >>> 6 &&& 0x3F ||| 0x80), byte (pt &&& 0x3F ||| 0x80)]

/-- `encode_utf8(last_escaped_codepoint, out)`; `none` is `-1`. -/
def encodeLast (last : Option Nat) : Str := (last.map encodeUtf8).getD []

/-- The value of a hexadecimal digit. -/
def hexDigit (c : Char) : Option Nat :=
  if 'a' ≤ c ∧ c ≤ 'f' then some (c.toNat - 'a'.toNat + 10)
  else if 'A' ≤ c ∧ c ≤ 'F' then some (c.toNat - 'A'.toNat + 10)
  else if '0' ≤ c ∧ c ≤ '9' then some (c.toNat - '0'.toNat)
  else none

/-- `strtol` of the four digits of a `\u` escape. -/
def codepoint (a b c d : Char) : Option Nat := do
  let a ← hexDigit a
  let b ← hexDigit b
  let c ← hexDigit c
  let d ← hexDigit d
  return ((a * 16 + b) * 16 + c) * 16 + d

def isLead (pt : Nat) : Bool := 0xD800 ≤ pt && pt ≤ 0xDBFF

def isTrail (pt : Nat) : Bool := 0xDC00 ≤ pt && pt ≤ 0xDFFF

/-- The character beyond the BMP that two surrogates stand for. -/
def surrogatePair (lead trail : Nat) : Nat :=
  ((lead - 0xD800) <<< 10 ||| (trail - 0xDC00)) + 0x10000

/-- The character that a simple escape stands for. -/
def simpleEscape : Char → Option Char
  | 'b' => some '\x08'
  | 'f' => some '\x0c'
  | 'n' => some '\n'
  | 'r' => some '\r'
  | 't' => some '\t'
  | '"' => some '"'
  | '\\' => some '\\'
  | '/' => some '/'
  | _ => none

/-- `parse_string`, from a position in the string on; `last` is `last_escaped_codepoint`. -/
def parseString (signed : Bool) (last : Option Nat) : Str → Except Str (Str × Str)
  | [] => .error "unexpected end of input in string".toList
  | '"' :: s => .ok (encodeLast last, s)
  | '\\' :: [] => .error "unexpected end of input in string".toList
  | '\\' :: 'u' :: a :: b :: c :: d :: s =>
      match codepoint a b c d with
      | none => .error ("bad \\u escape: ".toList ++ [a, b, c, d])
      | some pt =>
          match last.filter fun lead => isLead lead && isTrail pt with
          | some lead => (parseString signed none s).map fun r =>
              (encodeUtf8 (surrogatePair lead pt) ++ r.1, r.2)
          | none => (parseString signed (some pt) s).map fun r => (encodeLast last ++ r.1, r.2)
  | '\\' :: 'u' :: s => .error ("bad \\u escape: ".toList ++ s.take 4)
  | '\\' :: c :: s =>
      match simpleEscape c with
      | none => .error ("invalid escape character ".toList ++ esc signed c)
      | some c => (parseString signed none s).map fun r => (encodeLast last ++ c :: r.1, r.2)
  | c :: s =>
      if c.toNat ≤ 0x1f then .error ("unescaped ".toList ++ esc signed c ++ " in string".toList)
      else (parseString signed none s).map fun r => (encodeLast last ++ c :: r.1, r.2)

/-! ## Numbers -/

/-- The integer part. -/
def parseInteger (signed : Bool) (s : Str) : Except Str Str :=
  if peek s = '0' then
    if (peek s.tail).isDigit then .error "leading 0s not permitted in numbers".toList
    else .ok s.tail
  else if '1' ≤ peek s ∧ peek s ≤ '9' then .ok (s.tail.dropWhile Char.isDigit)
  else .error ("invalid ".toList ++ esc signed (peek s) ++ " in number".toList)

/-- The decimal part. -/
def parseDecimal (s : Str) : Except Str Str :=
  if peek s = '.' then
    if (peek s.tail).isDigit then .ok (s.tail.dropWhile Char.isDigit)
    else .error "at least one digit required in fractional part".toList
  else .ok s

/-- The exponent part. -/
def parseExponent (s : Str) : Except Str Str :=
  if peek s = 'e' ∨ peek s = 'E' then
    let s := if peek s.tail = '+' ∨ peek s.tail = '-' then s.tail.tail else s.tail
    if (peek s).isDigit then .ok (s.dropWhile Char.isDigit)
    else .error "at least one digit required in exponent".toList
  else .ok s

/-- `parse_number`. A short integer, which neither of the last two parts follows, is read
by `atoi`, and any other number by `strtod`. -/
def parseNumber (signed : Bool) (s : Str) : Except Str (Json × Str) := do
  let s ← parseInteger signed (if peek s = '-' then s.tail else s)
  let s ← parseDecimal s
  let s ← parseExponent s
  return (.number, s)

/-! ## Values -/

/-- `expect`; the text is from the character on that was just read. -/
def expect (expected : String) (res : Json) (s : Str) : Except Str (Json × Str) :=
  if expected.toList <+: s then .ok (res, s.drop expected.toList.length)
  else
    .error ("parse error: expected ".toList ++ expected.toList ++ ", got ".toList ++
      s.take expected.toList.length)

/-- The loop over the members of an object or the elements of a list, for at most so many
turns. A turn starts at the token that has been read. -/
def parseLoop {α : Type} (signed : Bool) (close : Char) (kind : String)
    (element : Str → Except Str (α × Str)) : Nat → Str → Except Str (List α × Str)
  | 0, _ => .error []
  | turns + 1, s => do
      let (item, s) ← element s
      let (ch, s) ← getNextToken s
      if ch = close then return ([item], s)
      if ch ≠ ',' then
        .error ("expected ',' in ".toList ++ kind.toList ++ ", got ".toList ++ esc signed ch)
      else
        let (ch, s) ← getNextToken s
        let (items, s) ← parseLoop signed close kind element turns (ch :: s)
        return (item :: items, s)

/-- A key and its value, from the token on that starts the key. -/
def parseMember (signed : Bool) (value : Str → Except Str (Json × Str)) (s : Str) :
    Except Str ((Str × Json) × Str) :=
  if peek s ≠ '"' then
    .error ("expected '\"' in object, got ".toList ++ esc signed (peek s))
  else do
    let (key, s) ← parseString signed none s.tail
    let (ch, s) ← getNextToken s
    if ch ≠ ':' then .error ("expected ':' in object, got ".toList ++ esc signed ch)
    else
      let (value, s) ← value s
      return ((key, value), s)

/-- `data[key] = value`. -/
def setMember (data : Json.Object) (member : Str × Json) : Json.Object :=
  SortedMap.alter Prod.fst member.1 (fun _ => member) data

/-- An object, behind its brace. Every turn of the loop takes a character. -/
def parseObject (signed : Bool) (value : Str → Except Str (Json × Str)) (s : Str) :
    Except Str (Json × Str) := do
  let (ch, s) ← getNextToken s
  if ch = '}' then return (.object [], s)
  let (members, s) ←
    parseLoop signed '}' "object" (parseMember signed value) (s.length + 1) (ch :: s)
  return (.object (members.foldl setMember []), s)

/-- A list, behind its bracket. -/
def parseArray (signed : Bool) (value : Str → Except Str (Json × Str)) (s : Str) :
    Except Str (Json × Str) := do
  let (ch, s) ← getNextToken s
  if ch = ']' then return (.array [], s)
  let (items, s) ← parseLoop signed ']' "list" value (s.length + 1) (ch :: s)
  return (.array items, s)

/-- `parse_json`; the depth is given by the number of levels that are left. -/
def parseJson (signed : Bool) : (levels : Nat) → Str → Except Str (Json × Str)
  | 0, _ => .error "exceeded maximum nesting depth".toList
  | levels + 1, s => do
      let (ch, s) ← getNextToken s
      if ch = '-' ∨ ch.isDigit then parseNumber signed (ch :: s)
      else if ch = 't' then expect "true" (.bool true) (ch :: s)
      else if ch = 'f' then expect "false" (.bool false) (ch :: s)
      else if ch = 'n' then expect "null" .null (ch :: s)
      else if ch = '"' then (parseString signed none s).map fun r => (.string r.1, r.2)
      else if ch = '{' then parseObject signed (parseJson signed levels) s
      else if ch = '[' then parseArray signed (parseJson signed levels) s
      else .error ("expected value, got ".toList ++ esc signed ch)

/-- `Json::parse`. -/
def parse (signed : Bool) (text : Str) : Except Str Json := do
  let (result, s) ← parseJson signed (maxDepth + 1) text
  match consumeWhitespace s with
  | [] => return result
  | c :: _ => .error ("unexpected trailing ".toList ++ esc signed c)

/-- What `loadJsonDatabase` makes of a file: `none` if it cannot be opened or parsed. -/
def readDocument (signed : Bool) (file : Option Str) : Option Json :=
  file.bind fun text => (parse signed text).toOption

end Lorelei.Json11
