import Lorelei.Support.StringExtras

/-!
# Canonical types

The types of C as the compiler's canonical form has them, typedefs resolved and
qualifiers kept where they stand.  How a type is spelled is the compiler's business and
a parameter, `getAsString`; `getTypeString` is the spelling with the target's `va_list`
put back in.
-/

namespace Lorelei

open Support

/-- The qualifiers of one level of a type. -/
structure Qualifiers where
  const : Bool := false
  volatile : Bool := false
  restrict : Bool := false
deriving DecidableEq, Repr

inductive TagKind where
  | struct | union | enum
deriving DecidableEq, Repr

/-- The built-in types; the ones that nothing depends on stand under their names. -/
inductive BuiltinKind where
  | void | bool | char | signedChar | unsignedChar | int | unsignedInt | long | unsignedLong
  | double
  | other (name : String)
deriving DecidableEq, Repr

/-- A canonical type. A record stands under its name; what it consists of is up to the
declarations of the translation unit. -/
inductive QualType where
  | builtin (quals : Qualifiers) (kind : BuiltinKind)
  | pointer (quals : Qualifiers) (pointee : QualType)
  | array (element : QualType) (size : Option Nat)
  | functionProto (returnType : QualType) (paramTypes : List QualType) (isVariadic : Bool)
  | functionNoProto (returnType : QualType)
  | tag (quals : Qualifiers) (kind : TagKind) (name : String)

namespace QualType

def isVoidType : QualType → Bool
  | .builtin _ .void => true
  | _ => false

def isCharType : QualType → Bool
  | .builtin _ .char | .builtin _ .signedChar | .builtin _ .unsignedChar => true
  | _ => false

def isPointerType : QualType → Bool
  | .pointer _ _ => true
  | _ => false

def isArrayType : QualType → Bool
  | .array _ _ => true
  | _ => false

def isFunctionType : QualType → Bool
  | .functionProto _ _ _ | .functionNoProto _ => true
  | _ => false

def isFunctionPointerType : QualType → Bool
  | .pointer _ pointee => pointee.isFunctionType
  | _ => false

def isUnionType : QualType → Bool
  | .tag _ .union _ => true
  | _ => false

def isRecordType : QualType → Bool
  | .tag _ .struct _ | .tag _ .union _ => true
  | _ => false

/-- `getPointeeType`, for pointers. -/
def getPointeeType : QualType → Option QualType
  | .pointer _ pointee => some pointee
  | _ => none

/-- `isCharPointerType`. -/
def isCharPointerType : QualType → Bool
  | .pointer _ pointee => pointee.isCharType
  | _ => false

/-- `ASTContext::getPointerType`. -/
def pointerTo (t : QualType) : QualType := .pointer {} t

/-- `ASTContext::VoidTy`. -/
def void : QualType := .builtin {} .void

@[simp] theorem isFunctionPointerType_pointerTo (t : QualType) :
    (pointerTo t).isFunctionPointerType = t.isFunctionType := rfl

/-! ## Equality -/

mutual

/-- Equality of types, by the trees. -/
def beq : QualType → QualType → Bool
  | .builtin quals kind, .builtin quals' kind' => quals = quals' && kind = kind'
  | .pointer quals pointee, .pointer quals' pointee' => quals = quals' && beq pointee pointee'
  | .array element size, .array element' size' => beq element element' && size = size'
  | .functionProto returnType paramTypes isVariadic,
      .functionProto returnType' paramTypes' isVariadic' =>
      beq returnType returnType' && beqList paramTypes paramTypes' && isVariadic = isVariadic'
  | .functionNoProto returnType, .functionNoProto returnType' => beq returnType returnType'
  | .tag quals kind name, .tag quals' kind' name' =>
      quals = quals' && kind = kind' && name = name'
  | _, _ => false

def beqList : List QualType → List QualType → Bool
  | [], [] => true
  | t :: ts, t' :: ts' => beq t t' && beqList ts ts'
  | _, _ => false

end

mutual

theorem beq_iff : ∀ s t : QualType, beq s t = true ↔ s = t
  | .builtin quals kind, t => by
      cases t <;> simp [beq]
  | .pointer quals pointee, t => by
      cases t <;> simp [beq, beq_iff pointee]
  | .array element size, t => by
      cases t <;> simp [beq, beq_iff element]
  | .functionProto returnType paramTypes isVariadic, t => by
      cases t <;> simp [beq, beq_iff returnType, beqList_iff paramTypes, and_assoc]
  | .functionNoProto returnType, t => by
      cases t <;> simp [beq, beq_iff returnType]
  | .tag quals kind name, t => by
      cases t <;> simp [beq, and_assoc]

theorem beqList_iff : ∀ ss ts : List QualType, beqList ss ts = true ↔ ss = ts
  | [], ts => by
      cases ts <;> simp [beqList]
  | s :: ss, ts => by
      cases ts <;> simp [beqList, beq_iff s, beqList_iff ss]

end

instance : DecidableEq QualType := fun s t => decidable_of_iff (beq s t = true) (beq_iff s t)

end QualType

/-! ## Spelling -/

/-- `getTypeString`. -/
def getTypeString (getAsString : QualType → Str) (t : QualType) : Str :=
  let res := getAsString t
  let res := str.replace res "struct __va_list_tag[1]".toList "va_list".toList
  let res := str.replace res "struct __va_list_tag *".toList "va_list".toList
  let res := str.replace res "struct std::__va_list".toList "va_list".toList
  str.replace res "struct __va_list".toList "va_list".toList

/-! ## Signatures -/

/-- A decomposed function type. -/
structure FunctionTypeView where
  returnType : QualType
  argTypes : List QualType
  isVariadic : Bool

/-- The view of a function type. -/
def FunctionTypeView.ofFunctionType : QualType → Option FunctionTypeView
  | .functionProto returnType paramTypes isVariadic => some ⟨returnType, paramTypes, isVariadic⟩
  | .functionNoProto returnType => some ⟨returnType, [], false⟩
  | _ => none

/-- `FunctionTypeView`: a leading function pointer is peeled. -/
def FunctionTypeView.ofType : QualType → Option FunctionTypeView
  | .pointer _ pointee => ofFunctionType pointee
  | t => ofFunctionType t

/-- The names of the typedefs that a written type goes through, outermost first, each
with whether it is the compiler's own `va_list`. -/
structure TypedefDecl where
  name : String
  isBuiltinVaList : Bool := false
deriving DecidableEq, Repr

/-- `isVaListType`, on the typedef chain of a type as it is written. -/
def isVaListType (typedefs : List TypedefDecl) : Bool :=
  typedefs.any fun d => d.isBuiltinVaList || d.name = "va_list" ||
    d.name = "__builtin_va_list" || d.name = "__gnuc_va_list" || d.name = "__va_list"

end Lorelei
