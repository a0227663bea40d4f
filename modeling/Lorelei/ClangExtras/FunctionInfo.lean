import Lorelei.ClangExtras.QualType
import Mathlib.Data.List.Nodup

/-!
# Signatures with named arguments

`FunctionInfo` and how a type is written where a plain type name is expected. A signature
built from a type names its arguments `arg1`, `arg2` and so on.
-/

namespace Lorelei

open Support

/-! ## Types as text -/

/-- `isCompound`: an array or a function behind pointers. -/
def QualType.isCompound : QualType → Bool
  | .pointer _ pointee => isCompound pointee
  | t => t.isArrayType || t.isFunctionType

/-- `getTypeStringDecompound`. -/
def getTypeStringDecompound (getAsString : QualType → Str) (t : QualType) : Str :=
  if t.isCompound then "__typeof__(".toList ++ getTypeString getAsString t ++ ")".toList
  else getTypeString getAsString t

/-! ## Signatures -/

/-- `FunctionInfo`. -/
structure FunctionInfo where
  returnType : QualType
  arguments : List (QualType × Str)
  isVariadic : Bool := false

/-- The name of the `i`-th argument of a signature that has none. -/
def argName (i : Nat) : Str := "arg".toList ++ Nat.toDigits 10 (i + 1)

namespace FunctionInfo

/-- The constructor from a `FunctionTypeView`. -/
def ofView (view : FunctionTypeView) : FunctionInfo where
  returnType := view.returnType
  arguments := view.argTypes.zipIdx.map fun (type, i) => (type, argName i)
  isVariadic := view.isVariadic

variable (info : FunctionInfo)

def argNames : List Str := info.arguments.map Prod.snd

/-- `argumentName`; `none` outside of the list. -/
def argumentName (i : Int) : Option Str := if 0 ≤ i then info.argNames[i.toNat]? else none

end FunctionInfo

/-! ## The names of the arguments -/

theorem argName_injective : Function.Injective argName := by
  intro i j h
  have hdigits := congrArg (Nat.ofDigitChars 10 · 0) (List.append_cancel_left h)
  simpa [Nat.ofDigitChars_toDigits] using hdigits

theorem argName_ne {i : Nat} {name : Str} (h : ¬ "arg".toList <+: name) : argName i ≠ name := by
  rintro rfl
  exact h (List.prefix_append _ _)

namespace FunctionInfo

variable (view : FunctionTypeView)

@[simp] theorem returnType_ofView : (ofView view).returnType = view.returnType := rfl

@[simp] theorem isVariadic_ofView : (ofView view).isVariadic = view.isVariadic := rfl

@[simp] theorem map_fst_arguments_ofView :
    (ofView view).arguments.map Prod.fst = view.argTypes := by
  simp [ofView, Function.comp_def]

theorem argNames_ofView :
    (ofView view).argNames = (List.range view.argTypes.length).map argName := by
  rw [List.range_eq_range', ← List.zipIdx_map_snd 0 view.argTypes, List.map_map]
  simp [argNames, ofView, Function.comp_def]

theorem nodup_argNames_ofView : (ofView view).argNames.Nodup := by
  rw [argNames_ofView]
  exact List.Nodup.map argName_injective List.nodup_range

/-- A name that does not begin as the arguments' names do is not one of them. -/
theorem notMem_argNames_ofView {name : Str} (h : ¬ "arg".toList <+: name) :
    name ∉ (ofView view).argNames := by
  rw [argNames_ofView, List.mem_map]
  rintro ⟨i, -, hi⟩
  exact argName_ne h hi

end FunctionInfo

end Lorelei
