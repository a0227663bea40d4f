import Lorelei.Json11.Parser

/-!
# JSON texts

The grammar of JSON as a relation between texts and values. The texts of arrays and objects
are described for a given relation of their elements (`Value`), so that the nesting is an
iteration of it (`Denotes`).

An escaped surrogate stands for a character together with the one behind it, if the two
make a pair; any other code point stands for itself.
-/

namespace Lorelei.Json11

open Support DLCall

/-- White space. -/
def Blank (s : Str) : Prop := ∀ c ∈ s, c ∈ [' ', '\t', '\n', '\r']

/-! ## Numbers -/

def Digits (s : Str) : Prop := s ≠ [] ∧ ∀ c ∈ s, c.isDigit = true

inductive Integer : Str → Prop
  | zero : Integer ['0']
  | nonzero {c : Char} {s : Str} :
      c.isDigit = true → c ≠ '0' → (∀ d ∈ s, d.isDigit = true) → Integer (c :: s)

inductive Fraction : Str → Prop
  | nil : Fraction []
  | point {s : Str} : Digits s → Fraction ('.' :: s)

inductive Exponent : Str → Prop
  | nil : Exponent []
  | exp {e : Char} {sign s : Str} :
      e ∈ ['e', 'E'] → sign ∈ [[], ['+'], ['-']] → Digits s → Exponent (e :: (sign ++ s))

inductive Number : Str → Prop
  | mk {minus int frac exp : Str} : minus ∈ [[], ['-']] → Integer int → Fraction frac →
      Exponent exp → Number (minus ++ (int ++ (frac ++ exp)))

/-! ## Strings -/

/-- What one item of a string stands for. -/
inductive Item where
  | char (c : Char)
  | escaped (pt : Nat)

/-- The spellings of an item. -/
inductive Spells : Str → Item → Prop
  | char {c : Char} : c ≠ '"' → c ≠ '\\' → 0x1f < c.toNat → Spells [c] (.char c)
  | simple {e c : Char} : simpleEscape e = some c → Spells ['\\', e] (.char c)
  | unicode {a b c d : Char} {pt : Nat} :
      codepoint a b c d = some pt → Spells ['\\', 'u', a, b, c, d] (.escaped pt)

/-- The text between the quotes. -/
inductive Characters : Str → List Item → Prop
  | nil : Characters [] []
  | cons {t s : Str} {item : Item} {items : List Item} :
      Spells t item → Characters s items → Characters (t ++ s) (item :: items)

/-- The string that the items stand for. -/
def decode : List Item → Str
  | [] => []
  | .char c :: items => c :: decode items
  | .escaped lead :: .escaped trail :: items =>
      if isLead lead && isTrail trail then encodeUtf8 (surrogatePair lead trail) ++ decode items
      else encodeUtf8 lead ++ decode (.escaped trail :: items)
  | .escaped pt :: items => encodeUtf8 pt ++ decode items

/-! ## Values -/

/-- Elements with commas in between. -/
inductive Elements {α : Type} (Text : Str → α → Prop) : Str → List α → Prop
  | one {b t b' : Str} {a : α} :
      Blank b → Text t a → Blank b' → Elements Text (b ++ (t ++ b')) [a]
  | cons {b t b' s : Str} {a : α} {as : List α} :
      Blank b → Text t a → Blank b' → Elements Text s as →
        Elements Text (b ++ (t ++ (b' ++ ',' :: s))) (a :: as)

/-- A key and its value. -/
inductive Member (Text : Str → Json → Prop) : Str → Str × Json → Prop
  | mk {chars b b' t : Str} {items : List Item} {value : Json} :
      Characters chars items → Blank b → Blank b' → Text t value →
        Member Text ('"' :: (chars ++ '"' :: (b ++ ':' :: (b' ++ t)))) (decode items, value)

/-- The map of these members: a key has the last value that it is given. -/
def objectOf (members : List (Str × Json)) : Json := .object (members.foldl setMember [])

/-- A text of a value whose elements have the texts they are given. -/
inductive Value (Text : Str → Json → Prop) : Str → Json → Prop
  | null : Value Text "null".toList .null
  | trueLit : Value Text "true".toList (.bool true)
  | falseLit : Value Text "false".toList (.bool false)
  | number {s : Str} : Number s → Value Text s .number
  | string {chars : Str} {items : List Item} :
      Characters chars items → Value Text ('"' :: (chars ++ ['"'])) (.string (decode items))
  | emptyArray {b : Str} : Blank b → Value Text ('[' :: (b ++ [']'])) (.array [])
  | array {s : Str} {items : List Json} :
      Elements Text s items → Value Text ('[' :: (s ++ [']'])) (.array items)
  | emptyObject {b : Str} : Blank b → Value Text ('{' :: (b ++ ['}'])) (objectOf [])
  | object {s : Str} {members : List (Str × Json)} :
      Elements (Member Text) s members → Value Text ('{' :: (s ++ ['}'])) (objectOf members)

/-- The text denotes the value, which nests to at most so many levels. -/
def Denotes : (levels : Nat) → Str → Json → Prop
  | 0 => fun _ _ => False
  | levels + 1 => Value (Denotes levels)

/-- The text is a JSON text of the value. -/
inductive Document (levels : Nat) : Str → Json → Prop
  | mk {b t b' : Str} {value : Json} :
      Blank b → Denotes levels t value → Blank b' → Document levels (b ++ (t ++ b')) value

end Lorelei.Json11
