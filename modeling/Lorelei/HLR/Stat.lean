import Lorelei.ClangExtras.RewriteInsertion
import Lorelei.HLR.SourceStatistics

/-!
# The guards that a set of files needs

`stat` goes through the files. It records the types of the callbacks that are called, and
under the type of each function that decays to a pointer the place where that function is
declared, with the first file that refers to it (`probed_probe`). Types that are not
requested are passed over.
-/

namespace Lorelei.HLR

open Support ClangExtras

/-! ## The files -/

/-- A call through a function pointer: the type of its callee as it is printed, and the range
of the callee. -/
structure CallExpr where
  type : Str
  callee : CharSourceRange

/-- A function that decays to a pointer: the type of the pointer as it is printed, where the
function is declared, its name, and the range of the reference. -/
structure DeclRefExpr where
  type : Str
  location : Str
  name : Str
  range : CharSourceRange

/-- What the matchers find in a file. -/
structure TranslationUnit where
  inFile : Str
  callbackInvokeExprList : List CallExpr
  functionDecayExprList : List DeclRefExpr

/-! ## The command -/

namespace SourceStatistics

/-- `functionDecayGuardStats[typeStr].locations.insert`. -/
def insertLocation (s : SourceStatistics) (inFile : Str) (E : DeclRefExpr) : SourceStatistics :=
  { s with
    functionDecayGuardStats := s.functionDecayGuardStats.alter E.type fun data =>
      (data.getD .empty).alter E.location fun file => file.getD inFile }

/-- The body of the loop over the calls; the flag is `fileNeedsPatch`. -/
def probeCall (requestedSignatures : Finset Str) (st : SourceStatistics × Bool) (E : CallExpr) :
    SourceStatistics × Bool :=
  if E.type ∈ requestedSignatures then
    ({ st.1 with
      callbackCheckGuardSignatures := insert E.type st.1.callbackCheckGuardSignatures }, true)
  else st

/-- The body of the loop over the decays. -/
def probeDecay (requestedSignatures : Finset Str) (inFile : Str) (st : SourceStatistics × Bool)
    (E : DeclRefExpr) : SourceStatistics × Bool :=
  if E.type ∈ requestedSignatures then (st.1.insertLocation inFile E, true) else st

/-- `EndSourceFileAction`. -/
def endSourceFile (requestedSignatures : Finset Str) (s : SourceStatistics)
    (unit : TranslationUnit) : SourceStatistics :=
  let st := unit.callbackInvokeExprList.foldl (probeCall requestedSignatures) (s, false)
  let st := unit.functionDecayExprList.foldl (probeDecay requestedSignatures unit.inFile) st
  if st.2 then { st.1 with filesNeedPatch := insert unit.inFile st.1.filesNeedPatch } else st.1

/-- The statistics of a set of files. -/
def probe (requestedSignatures : Finset Str) (units : List TranslationUnit) : SourceStatistics :=
  units.foldl (endSourceFile requestedSignatures) empty

/-! ## What is recorded -/

/-- The file that is recorded for a place under a type. -/
def fileOf (s : SourceStatistics) (type location : Str) : Option Str :=
  (s.functionDecayGuardStats.find type).bind fun data => data.find location

end SourceStatistics

/-- The file refers to a function of this type that is declared at this place. -/
def TranslationUnit.Decays (unit : TranslationUnit) (type location : Str) : Prop :=
  ∃ E ∈ unit.functionDecayExprList, E.type = type ∧ E.location = location

instance (unit : TranslationUnit) (type location : Str) : Decidable (unit.Decays type location) :=
  inferInstanceAs (Decidable (∃ E ∈ unit.functionDecayExprList, _))

/-- A requested type is used in the file. -/
def TranslationUnit.NeedsPatch (requestedSignatures : Finset Str) (unit : TranslationUnit) : Prop :=
  (∃ E ∈ unit.callbackInvokeExprList, E.type ∈ requestedSignatures) ∨
    ∃ E ∈ unit.functionDecayExprList, E.type ∈ requestedSignatures

namespace SourceStatistics

/-- What the statistics of these files say. -/
structure Probed (requestedSignatures : Finset Str) (units : List TranslationUnit)
    (s : SourceStatistics) : Prop where
  calls : ∀ type, type ∈ s.callbackCheckGuardSignatures ↔ type ∈ requestedSignatures ∧
    ∃ unit ∈ units, ∃ E ∈ unit.callbackInvokeExprList, E.type = type
  fileOf : ∀ type location, s.fileOf type location =
    if type ∈ requestedSignatures then
      (units.find? fun unit => unit.Decays type location).map TranslationUnit.inFile
    else none
  files : ∀ file, file ∈ s.filesNeedPatch ↔
    ∃ unit ∈ units, unit.inFile = file ∧ unit.NeedsPatch requestedSignatures
  placed : ∀ guard ∈ s.functionDecayGuardStats.entries, guard.2.entries ≠ []

variable {requestedSignatures : Finset Str} {s : SourceStatistics} {inFile type location : Str}

theorem fileOf_insertLocation (s : SourceStatistics) (inFile : Str) (E : DeclRefExpr) :
    (s.insertLocation inFile E).fileOf type location =
      (s.fileOf type location).or
        (if E.type = type ∧ E.location = location then some inFile else none) := by
  rw [fileOf, insertLocation, OrderedMap.find_alter]
  by_cases htype : E.type = type
  · subst htype
    rw [if_pos rfl, Option.bind_some, OrderedMap.find_alter, fileOf]
    have hdata : ((s.functionDecayGuardStats.find E.type).getD .empty).find location =
        (s.functionDecayGuardStats.find E.type).bind fun data => data.find location := by
      cases s.functionDecayGuardStats.find E.type with
      | none => exact OrderedMap.find_empty location
      | some data => rfl
    by_cases hlocation : E.location = location
    · subst hlocation
      rw [if_pos rfl, hdata, if_pos ⟨rfl, rfl⟩]
      cases (s.functionDecayGuardStats.find E.type).bind fun data => data.find E.location <;> rfl
    · rw [if_neg hlocation, hdata, if_neg fun h => hlocation h.2, Option.or_none]
  · rw [if_neg htype, if_neg fun h => htype h.1, Option.or_none, fileOf]

theorem placed_insertLocation
    (h : ∀ guard ∈ s.functionDecayGuardStats.entries, guard.2.entries ≠ []) (inFile : Str)
    (E : DeclRefExpr) :
    ∀ guard ∈ (s.insertLocation inFile E).functionDecayGuardStats.entries,
      guard.2.entries ≠ [] := by
  have hnew (data : Locations) :
      (data.alter E.location fun file => file.getD inFile).entries ≠ [] := by
    intro hnil
    have hfind := OrderedMap.find_alter_self data E.location fun file => file.getD inFile
    rw [OrderedMap.find_eq_some_iff, hnil] at hfind
    exact List.not_mem_nil hfind
  intro guard hguard
  rcases OrderedMap.mem_alter hguard with rfl | ⟨_, _, rfl⟩ | hguard
  · exact hnew _
  · exact hnew _
  · exact h guard hguard

/-- The loop over the calls. -/
theorem foldl_probeCall (requestedSignatures : Finset Str) (calls : List CallExpr)
    (st : SourceStatistics × Bool) :
    let st' := calls.foldl (probeCall requestedSignatures) st
    st'.1.functionDecayGuardStats = st.1.functionDecayGuardStats ∧
      st'.1.filesNeedPatch = st.1.filesNeedPatch ∧
      (∀ type, type ∈ st'.1.callbackCheckGuardSignatures ↔
        type ∈ st.1.callbackCheckGuardSignatures ∨
          type ∈ requestedSignatures ∧ ∃ E ∈ calls, E.type = type) ∧
      (st'.2 = true ↔ st.2 = true ∨ ∃ E ∈ calls, E.type ∈ requestedSignatures) := by
  induction calls generalizing st with
  | nil => simp
  | cons E calls ih =>
      obtain ⟨hguards, hfiles, hcalls, hflag⟩ := ih (probeCall requestedSignatures st E)
      rw [List.foldl_cons]
      refine ⟨hguards.trans ?_, hfiles.trans ?_, fun type => (hcalls type).trans ?_,
        hflag.trans ?_⟩
      · rw [probeCall]
        split <;> rfl
      · rw [probeCall]
        split <;> rfl
      · by_cases hE : E.type ∈ requestedSignatures
        · rw [probeCall, if_pos hE, Finset.mem_insert, List.exists_mem_cons_iff]
          constructor
          · rintro ((rfl | h) | ⟨h, hex⟩)
            · exact .inr ⟨hE, .inl rfl⟩
            · exact .inl h
            · exact .inr ⟨h, .inr hex⟩
          · rintro (h | ⟨h, rfl | hex⟩)
            · exact .inl (.inr h)
            · exact .inl (.inl rfl)
            · exact .inr ⟨h, hex⟩
        · rw [probeCall, if_neg hE, List.exists_mem_cons_iff]
          refine or_congr Iff.rfl (and_congr_right fun h => (or_iff_right ?_).symm)
          rintro rfl
          exact hE h
      · by_cases hE : E.type ∈ requestedSignatures <;> simp [probeCall, hE]

/-- The loop over the decays. -/
theorem foldl_probeDecay (requestedSignatures : Finset Str) (inFile : Str)
    (decays : List DeclRefExpr) (st : SourceStatistics × Bool)
    (hplaced : ∀ guard ∈ st.1.functionDecayGuardStats.entries, guard.2.entries ≠ []) :
    let st' := decays.foldl (probeDecay requestedSignatures inFile) st
    st'.1.callbackCheckGuardSignatures = st.1.callbackCheckGuardSignatures ∧
      st'.1.filesNeedPatch = st.1.filesNeedPatch ∧
      (∀ type location, st'.1.fileOf type location = (st.1.fileOf type location).or
        (if type ∈ requestedSignatures ∧ ∃ E ∈ decays, E.type = type ∧ E.location = location then
          some inFile else none)) ∧
      (st'.2 = true ↔ st.2 = true ∨ ∃ E ∈ decays, E.type ∈ requestedSignatures) ∧
      ∀ guard ∈ st'.1.functionDecayGuardStats.entries, guard.2.entries ≠ [] := by
  induction decays generalizing st with
  | nil =>
      refine ⟨rfl, rfl, fun type location => ?_, by simp, hplaced⟩
      rw [List.foldl_nil, if_neg (by simp), Option.or_none]
  | cons E decays ih =>
      by_cases hE : E.type ∈ requestedSignatures
      · have hstep : probeDecay requestedSignatures inFile st E =
            (st.1.insertLocation inFile E, true) := if_pos hE
        obtain ⟨hcalls, hfiles, hfileOf, hflag, hplaced'⟩ :=
          ih (st.1.insertLocation inFile E, true) (placed_insertLocation hplaced inFile E)
        rw [List.foldl_cons, hstep]
        refine ⟨hcalls, hfiles, fun type location => ?_, hflag.trans (by simp [hE]), hplaced'⟩
        rw [hfileOf, fileOf_insertLocation, Option.or_assoc]
        refine congrArg _ ?_
        by_cases hhere : E.type = type ∧ E.location = location
        · rw [if_pos hhere, Option.some_or, if_pos ⟨hhere.1 ▸ hE, E, List.mem_cons_self, hhere⟩]
        · rw [if_neg hhere, Option.none_or]
          exact if_congr (and_congr_right fun _ => by simp [hhere]) rfl rfl
      · have hstep : probeDecay requestedSignatures inFile st E = st := if_neg hE
        obtain ⟨hcalls, hfiles, hfileOf, hflag, hplaced'⟩ := ih st hplaced
        rw [List.foldl_cons, hstep]
        refine ⟨hcalls, hfiles, fun type location => ?_, hflag.trans (by simp [hE]), hplaced'⟩
        have hne : type ∈ requestedSignatures → ¬ (E.type = type ∧ E.location = location) := by
          rintro h ⟨rfl, -⟩
          exact hE h
        rw [hfileOf]
        exact congrArg _ (if_congr (and_congr_right fun h => by simp [hne h]) rfl rfl)

theorem probed_empty : Probed requestedSignatures [] empty where
  calls type := by simp [empty]
  fileOf type location := by simp [SourceStatistics.fileOf, empty, OrderedMap.find_empty]
  files file := by simp [empty]
  placed guard hguard := absurd hguard List.not_mem_nil

theorem Probed.endSourceFile {units : List TranslationUnit}
    (h : Probed requestedSignatures units s) (unit : TranslationUnit) :
    Probed requestedSignatures (units ++ [unit]) (s.endSourceFile requestedSignatures unit) := by
  obtain ⟨hguards₁, hfiles₁, hcalls₁, hflag₁⟩ :=
    foldl_probeCall requestedSignatures unit.callbackInvokeExprList
      (s, false)
  generalize hst : unit.callbackInvokeExprList.foldl (probeCall requestedSignatures) (s, false) =
    st at hguards₁ hfiles₁ hcalls₁ hflag₁
  obtain ⟨hcalls₂, hfiles₂, hfileOf₂, hflag₂, hplaced₂⟩ :=
    foldl_probeDecay requestedSignatures unit.inFile
      unit.functionDecayExprList st (by rw [hguards₁]; exact h.placed)
  generalize hst' : unit.functionDecayExprList.foldl
    (probeDecay requestedSignatures unit.inFile) st =
    st' at hcalls₂ hfiles₂ hfileOf₂ hflag₂ hplaced₂
  have hneeds : st'.2 = true ↔ unit.NeedsPatch requestedSignatures := by
    rw [hflag₂, hflag₁, TranslationUnit.NeedsPatch]
    simp
  have hresult : s.endSourceFile requestedSignatures unit =
      if st'.2 then { st'.1 with filesNeedPatch := insert unit.inFile st'.1.filesNeedPatch }
      else st'.1 := by
    rw [SourceStatistics.endSourceFile, hst, hst']
  have hcalls : (s.endSourceFile requestedSignatures unit).callbackCheckGuardSignatures =
      st'.1.callbackCheckGuardSignatures := by
    rw [hresult]
    split <;> rfl
  have hguards : (s.endSourceFile requestedSignatures unit).functionDecayGuardStats =
      st'.1.functionDecayGuardStats := by
    rw [hresult]
    split <;> rfl
  refine ⟨fun type => ?_, fun type location => ?_, fun file => ?_, ?_⟩
  · rw [hcalls, hcalls₂, hcalls₁, h.calls]
    simp only [List.mem_append, List.mem_singleton, or_and_right, exists_or, exists_eq_left]
    exact and_or_left.symm
  · have hfileOf : (s.endSourceFile requestedSignatures unit).fileOf type location =
        st'.1.fileOf type location := by
      rw [SourceStatistics.fileOf, hguards, SourceStatistics.fileOf]
    have hsame : st.1.fileOf type location = s.fileOf type location := by
      rw [SourceStatistics.fileOf, hguards₁, SourceStatistics.fileOf]
    rw [hfileOf, hfileOf₂, hsame, h.fileOf, List.find?_append, List.find?_singleton]
    by_cases htype : type ∈ requestedSignatures
    · rw [if_pos htype, if_pos htype]
      cases units.find? fun unit => unit.Decays type location with
      | some first => rfl
      | none =>
          rw [Option.map_none, Option.none_or, Option.none_or]
          by_cases hdecays : unit.Decays type location
          · rw [if_pos ⟨htype, hdecays⟩, if_pos (decide_eq_true hdecays)]
            rfl
          · rw [if_neg fun hex => hdecays hex.2, if_neg (by simpa using hdecays)]
            rfl
    · rw [if_neg htype, if_neg htype, if_neg fun hex => htype hex.1, Option.or_none]
  · have hmem : file ∈ (s.endSourceFile requestedSignatures unit).filesNeedPatch ↔
        file ∈ s.filesNeedPatch ∨
          unit.inFile = file ∧ unit.NeedsPatch requestedSignatures := by
      rw [hresult, ← hneeds]
      split
      next hflag => simp only [Finset.mem_insert, hfiles₂, hfiles₁, hflag, and_true]; tauto
      next hflag => simp [hfiles₂, hfiles₁, hflag]
    rw [hmem, h.files]
    simp only [List.mem_append, List.mem_singleton, or_and_right, exists_or, exists_eq_left]
  · rw [hguards]
    exact hplaced₂

/-- The statistics record exactly the requested types that are called, the first file for each
place of a function that decays, and the files that have one or the other. -/
theorem probed_probe (requestedSignatures : Finset Str) (units : List TranslationUnit) :
    Probed requestedSignatures units (probe requestedSignatures units) := by
  induction units using List.reverseRecOn with
  | nil => exact probed_empty
  | append_singleton units unit ih =>
      rw [probe, List.foldl_append]
      exact ih.endSourceFile unit

end SourceStatistics

end Lorelei.HLR
