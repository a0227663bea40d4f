import Lorelei.ClangExtras.Spelling
import Lorelei.TLC.FormatArguments

/-!
# Which calls are carried

The layers come to the identity exactly where the builder carries the call. That is so for
all signatures of types whose text a compiler reads back, but the text of a pointer to the
`va_list` of x86_64 is that of a pointer to an array.
-/

namespace Lorelei.TLC

open Support

/-- The layers come to the identity exactly where both compilers read the types that cross
as themselves and the builder carries such a call. -/
theorem composes_iff (cc : Mode → Compiler) (builder : Builder) (proc : ProcSnippet)
    (view : FunctionTypeView) :
    Composes cc builder proc view ↔ builder.Carries (cc (senderMode proc.direction))
      (cc (receiverMode proc.direction)) proc view := by
  cases builder with
  | default => exact composes_default_iff
  | format pass message => exact ⟨carries_of_composes, composes_of_carries⟩

/-! ## Types that are read back -/

/-- The text of a type is the compiler's own spelling of it, which it reads as the type. -/
structure Compiler.ReadsBack (cc : Compiler) (t : QualType) : Prop where
  text : getTypeString cc.getAsString t = cc.getAsString t
  spelling : cc.readType (cc.getAsString t) = some t
  typeof : t.isCompound = true →
    cc.readType ("__typeof__(".toList ++ cc.getAsString t ++ ")".toList) = some t

section ReadsBack

variable {cc : Compiler} {t : QualType}

theorem Compiler.ReadsBack.decompound (h : cc.ReadsBack t) :
    cc.readType (getTypeStringDecompound cc.getAsString t) = some t := by
  rw [getTypeStringDecompound, h.text]
  split
  · exact h.typeof ‹_›
  · exact h.spelling

theorem Compiler.ReadsBack.declares (h : cc.ReadsBack t) (hdecayed : decayed t = t) :
    cc.Declares t := by
  rw [Compiler.Declares, Compiler.paramType, h.decompound, Option.map_some, hdecayed]

theorem Compiler.ReadsBack.unpacks (h : cc.ReadsBack (.pointerTo t)) : cc.Unpacks t := by
  rw [Compiler.Unpacks, Compiler.castType, h.text, h.spelling]
  rfl

theorem Compiler.ReadsBack.retType (h : cc.ReadsBack t) (hreturnable : isReturnable t = true) :
    cc.retType t = some t := by
  rw [Compiler.retType, Compiler.varType, h.decompound, Option.filter_some, if_pos hreturnable]

end ReadsBack

/-- The default builder carries the calls of all signatures of such types. -/
theorem composes_default_of_readsBack {cc : Mode → Compiler} {proc : ProcSnippet}
    {view : FunctionTypeView} (hvariadic : view.isVariadic = false)
    (hargs : ∀ t ∈ view.argTypes, decayed t = t ∧ ∀ mode, (cc mode).ReadsBack t ∧
      (cc mode).ReadsBack (.pointerTo t))
    (hcallback : ∀ mode, (cc mode).ReadsBack pVoidType)
    (hret : view.returnType.isVoidType = false → isReturnable view.returnType = true ∧
      ∀ mode, (cc mode).ReadsBack view.returnType ∧
        (cc mode).ReadsBack (.pointerTo view.returnType)) :
    Composes cc .default proc view := by
  refine composes_default_iff.mpr ⟨hvariadic, fun t ht => ?_, fun _ => ⟨?_, ?_⟩, fun hvoid => ?_⟩
  · obtain ⟨hdecayed, hreads⟩ := hargs t ht
    exact ⟨(hreads _).1.declares hdecayed, (hreads _).1.declares hdecayed, (hreads _).2.unpacks⟩
  · exact (hcallback _).declares rfl
  · exact (hcallback _).declares rfl
  · obtain ⟨hreturnable, hreads⟩ := hret hvoid
    exact ⟨(hreads _).1.retType hreturnable, (hreads _).1.retType hreturnable,
      (hreads _).2.unpacks⟩

/-! ## A va_list behind a pointer -/

/-- What the compiler for x86_64 reads the texts of a function of an `int` and a `va_list`
as. A `va_list` is an array there, and a parameter of that type a pointer. -/
def vaListTagType : QualType := .tag {} .struct "__va_list_tag"

def x86_64 : Compiler where
  getAsString := QualType.getAsString
  readType text := [("int".toList, .builtin {} .int),
    ("int *".toList, .pointerTo (.builtin {} .int)),
    ("void *".toList, pVoidType),
    ("va_list".toList, .array vaListTagType (some 1)),
    ("va_list*".toList, .pointerTo (.array vaListTagType (some 1)))].lookup text
  enumType _ := .unsignedInt
  vaListType := .pointerTo vaListTagType

def vlogView : FunctionTypeView :=
  ⟨.void, [.builtin {} .int, .pointerTo vaListTagType], false⟩

/-- `void vlog(int level, va_list ap)`. -/
def vlogProc : ProcSnippet where
  kind := .function
  direction := .guestToHost
  name := "vlog".toList
  functionPointerType := .pointerTo (.functionProto vlogView.returnType vlogView.argTypes false)

example : vlogProc.realFunctionTypeView = some vlogView := by rfl

theorem getTypeString_pointerTo_vaList :
    getTypeString QualType.getAsString (.pointerTo (.pointerTo vaListTagType)) =
      "va_list*".toList := by
  decide

/-- The receiver's Entry reads the list at another type. -/
theorem not_composes_vlog : ¬ Composes (fun _ => x86_64) .default vlogProc vlogView := by
  intro h
  have hunpacks : x86_64.Unpacks (.pointerTo vaListTagType) :=
    ((composes_default_iff.mp h).args _ (by simp [vlogView])).2.2
  rw [Compiler.Unpacks, x86_64, Compiler.castType, getTypeString_pointerTo_vaList] at hunpacks
  revert hunpacks
  decide

end Lorelei.TLC
