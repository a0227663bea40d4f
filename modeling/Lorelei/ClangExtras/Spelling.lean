import Lorelei.ClangExtras.QualType

/-!
# How the compiler spells a type

The declarator syntax of C without a name in it, inside out: what stands around the place
of the name grows while the type is taken apart.
-/

namespace Lorelei

open Support

/-- Qualifiers in the order they are printed. -/
def Qualifiers.words (quals : Qualifiers) : List Str :=
  (if quals.const then ["const".toList] else []) ++
    (if quals.volatile then ["volatile".toList] else []) ++
      (if quals.restrict then ["restrict".toList] else [])

def BuiltinKind.spelling : BuiltinKind → Str
  | .void => "void".toList
  | .bool => "_Bool".toList
  | .char => "char".toList
  | .signedChar => "signed char".toList
  | .unsignedChar => "unsigned char".toList
  | .int => "int".toList
  | .unsignedInt => "unsigned int".toList
  | .long => "long".toList
  | .unsignedLong => "unsigned long".toList
  | .double => "double".toList
  | .other name => name.toList

def TagKind.spelling : TagKind → Str
  | .struct => "struct".toList
  | .union => "union".toList
  | .enum => "enum".toList

namespace QualType

/-- A specifier in front of the rest of a declarator. -/
def specifier (words : List Str) (inner : Str) : Str :=
  let head := List.intercalate [' '] words
  match inner with
  | [] => head
  | '[' :: _ => head ++ inner
  | _ => head ++ [' '] ++ inner

/-- The star of a pointer with its qualifiers. -/
def star (quals : Qualifiers) (inner : Str) : Str :=
  '*' :: specifier quals.words inner

mutual

/-- A declaration of this type around what stands in the place of the name. -/
def spell : QualType → Str → Str
  | .builtin quals kind, inner => specifier (quals.words ++ [kind.spelling]) inner
  | .tag quals kind name, inner =>
      specifier (quals.words ++ [kind.spelling, name.toList]) inner
  | .pointer quals pointee, inner =>
      let declarator := if quals = {} then '*' :: inner else star quals inner
      if pointee.isFunctionType || pointee.isArrayType then
        spell pointee (['('] ++ declarator ++ [')'])
      else spell pointee declarator
  | .array element size, inner =>
      spell element (inner ++ ['['] ++ ((size.map fun n => (toString n).toList).getD []) ++ [']'])
  | .functionProto returnType paramTypes isVariadic, inner =>
      let params := spellParams paramTypes
      let params := if isVariadic then params ++ ["...".toList]
        else if params = [] then ["void".toList] else params
      spell returnType (inner ++ ['('] ++ List.intercalate ", ".toList params ++ [')'])
  | .functionNoProto returnType, inner => spell returnType (inner ++ "()".toList)

def spellParams : List QualType → List Str
  | [] => []
  | type :: types => spell type [] :: spellParams types

end

/-- `QualType::getAsString`. -/
def getAsString (type : QualType) : Str := type.spell []

example : (QualType.pointer ⟨true, false, false⟩ (.functionProto .void
    [.builtin {} .int, .pointerTo (.builtin ⟨true, false, false⟩ .char)] false)).getAsString =
      "void (*const)(int, const char *)".toList := by
  decide

end QualType

end Lorelei
