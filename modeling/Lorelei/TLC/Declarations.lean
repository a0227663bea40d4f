import Lorelei.Lib.Worklist
import Lorelei.TLC.ProcSnippet

/-!
# What a translation unit declares

The declarations that `stat` and `generate` look at, in the order in which the matcher
meets them, and the records that types consist of. A type leads to another one through
pointers, arrays, fields and the signatures of function pointers.
-/

namespace Lorelei

open Support

namespace QualType

/-- The function type behind a function pointer. -/
def callee? : QualType → Option QualType
  | .pointer _ pointee => if pointee.isFunctionType then some pointee else none
  | _ => none

theorem callee?_eq_some {t c : QualType} :
    t.callee? = some c ↔ ∃ quals, t = .pointer quals c ∧ c.isFunctionType = true := by
  cases t with
  | pointer quals pointee =>
      simp only [callee?, Option.ite_none_right_eq_some, Option.some.injEq, pointer.injEq]
      constructor
      · rintro ⟨hfun, rfl⟩
        exact ⟨quals, ⟨rfl, rfl⟩, hfun⟩
      · rintro ⟨-, ⟨-, rfl⟩, hfun⟩
        exact ⟨hfun, rfl⟩
  | _ => simp [callee?]

theorem isFunctionPointerType_iff {t : QualType} :
    t.isFunctionPointerType = true ↔ ∃ quals c, t = .pointer quals c ∧ c.isFunctionType = true := by
  cases t with
  | pointer quals pointee => simp [isFunctionPointerType]
  | _ => simp [isFunctionPointerType]

/-- The type behind all pointers and arrays. -/
def stripped : QualType → QualType
  | .pointer _ pointee => pointee.stripped
  | .array element _ => element.stripped
  | t => t

end QualType

/-! ## Records -/

/-- The definition of a struct or a union. -/
structure RecordDecl where
  kind : TagKind
  name : String
  fields : List (String × QualType)

/-- The fields of a record type. -/
def fieldsOf (records : List RecordDecl) : QualType → List (String × QualType)
  | .tag _ .enum _ => []
  | .tag _ kind name =>
      ((records.find? fun r => r.kind = kind && r.name = name).map RecordDecl.fields).getD []
  | _ => []

/-- The types of the results and parameters of a function type. -/
def signatureTypes : QualType → List QualType
  | .functionProto returnType paramTypes _ =>
      (if returnType.isVoidType then [] else [returnType]) ++ paramTypes
  | .functionNoProto returnType => if returnType.isVoidType then [] else [returnType]
  | _ => []

/-- The types that a type leads to in one step. A function is only looked into behind a
pointer. -/
def successors (records : List RecordDecl) : QualType → List QualType
  | .pointer _ pointee => if pointee.isFunctionType then signatureTypes pointee else [pointee]
  | .array element _ => [element]
  | t => (fieldsOf records t).map Prod.snd

namespace TLC

/-! ## Declarations -/

/-- A declaration that the matchers report. The overlay type of a descriptor is as the
manifest writes it. -/
inductive Decl where
  /-- A function with C linkage. -/
  | function (name : String) (decl : FunctionDecl)
  /-- A typedef or an alias with C linkage. -/
  | typedef (name : String) (type : QualType)
  /-- A specialization of `ProcFnDesc`. -/
  | procFnDesc (function : String) (desc : Desc)
  /-- A specialization of `ProcCbDesc`, with the `name_hint` it may have and the typedef
  its argument may be written with. -/
  | procCbDesc (type : QualType) (nameHint typedefName : Option String) (desc : Desc)

structure TranslationUnit where
  records : List RecordDecl
  decls : List Decl

/-- `extractOverlayType`: a function type stands for the pointer to it. -/
def extractOverlayType (type : QualType) : Option QualType :=
  let type := if type.isFunctionType then .pointerTo type else type
  if type.isFunctionPointerType then some type else none

/-- `extractProcDesc`. -/
def extractProcDesc (desc : Desc) : Desc :=
  { desc with overlayType := desc.overlayType.bind extractOverlayType }

theorem isFunctionPointerType_of_extractOverlayType {type overlay : QualType}
    (h : extractOverlayType type = some overlay) : overlay.isFunctionPointerType = true := by
  rw [extractOverlayType] at h
  by_cases hp :
    (if type.isFunctionType then QualType.pointerTo type else type).isFunctionPointerType
  · rw [if_pos hp] at h
    cases h
    exact hp
  · rw [if_neg hp] at h
    exact nomatch h

end TLC

end Lorelei
