import Lorelei.ClangExtras.Rewriter
import Lorelei.HLR.Stat
import Mathlib.Data.Prod.Lex

/-!
# Putting the guards into a file

`rewrite` numbers the guards by their places in the statistics, and wraps each expression in
the macro of its guard. A function that decays has a variable in one of the files, the one
that is recorded for it; `rewrite` defines it at the end of that file.
-/

namespace Lorelei.HLR

open Support ClangExtras

/-- `FDGInstanceInfo`. -/
structure FDGInstanceInfo where
  index : Nat
  file : Str
deriving DecidableEq, Repr

/-- The index maps of `GlobalContext`. -/
structure IndexMaps where
  CCGIndexMap : Str → Option Nat
  FDGIndexMap : Str → Option Nat
  FDGInstanceInfoMaps : List (Str → Option FDGInstanceInfo)

/-- `FDGInstanceMap`. -/
def instanceMap (locations : Locations) (location : Str) : Option FDGInstanceInfo := do
  let j ← (locations.entries.map Prod.fst).idxOf? location
  let entry ← locations.entries[j]?
  return ⟨j, entry.2⟩

/-- The maps for these statistics. -/
def SourceStatistics.indexMaps (stat : SourceStatistics) : IndexMaps where
  CCGIndexMap guard := (SortedMap.elements stat.callbackCheckGuardSignatures).idxOf? guard
  FDGIndexMap guard := (stat.functionDecayGuardStats.entries.map Prod.fst).idxOf? guard
  FDGInstanceInfoMaps := stat.functionDecayGuardStats.entries.map fun guard => instanceMap guard.2

/-- A guard, by its index. -/
inductive Guard where
  | ccg (index : Nat)
  | fdg (guardIdx instanceIdx : Nat)
deriving DecidableEq, Repr

/-- The macro that a guard is called by. -/
def Guard.macroName : Guard → Str
  | ccg index => "LORE_CCG_".toList ++ Nat.toDigits 10 (index + 1)
  | fdg guardIdx instanceIdx =>
      "LORE_FDG_".toList ++ Nat.toDigits 10 (guardIdx + 1) ++ "_".toList ++
        Nat.toDigits 10 (instanceIdx + 1)

theorem Guard.macroName_ccg (index : Nat) :
    (ccg index).macroName = "LORE_CCG_".toList ++ Nat.toDigits 10 (index + 1) := rfl

theorem Guard.macroName_fdg (guardIdx instanceIdx : Nat) :
    (fdg guardIdx instanceIdx).macroName =
      "LORE_FDG_".toList ++ (Nat.toDigits 10 (guardIdx + 1) ++
        '_' :: Nat.toDigits 10 (instanceIdx + 1)) := by
  show "LORE_FDG_".toList ++ _ ++ "_".toList ++ _ = _
  rw [List.append_assoc, List.append_assoc]
  rfl

/-- A range that is wrapped in the macro of a guard. -/
def Guard.packer (guard : Guard) (range : CharSourceRange) : RangePacker :=
  ⟨range, String.ofList (guard.macroName ++ "(".toList), ")"⟩

namespace IndexMaps

variable (maps : IndexMaps)

/-- The guard of a call. -/
def callGuard (CE : CallExpr) : Option Guard := (maps.CCGIndexMap CE.type).map Guard.ccg

/-- The guard of a function that decays, with the file that has its variable. -/
def decayInstance (DRE : DeclRefExpr) : Option (Nat × FDGInstanceInfo) := do
  let guardIdx ← maps.FDGIndexMap DRE.type
  let map ← maps.FDGInstanceInfoMaps[guardIdx]?
  let info ← map DRE.location
  return (guardIdx, info)

def decayGuard (DRE : DeclRefExpr) : Option Guard :=
  (maps.decayInstance DRE).map fun inst => .fdg inst.1 inst.2.index

/-- The guards of a file, with their ranges. -/
def guards (unit : TranslationUnit) : List (CharSourceRange × Guard) :=
  unit.callbackInvokeExprList.filterMap (fun CE => (maps.callGuard CE).map (CE.callee, ·)) ++
    unit.functionDecayExprList.filterMap fun DRE => (maps.decayGuard DRE).map (DRE.range, ·)

def insertions (unit : TranslationUnit) : RewriteRangePackerSet :=
  .insertAll ((maps.guards unit).map fun guard => guard.2.packer guard.1)

/-- `fdgImplList.try_emplace`. -/
def tryEmplace (inFile : Str) (fdgImplList : OrderedMap (Nat ×ₗ Nat) Str) (DRE : DeclRefExpr) :
    OrderedMap (Nat ×ₗ Nat) Str :=
  match maps.decayInstance DRE with
  | none => fdgImplList
  | some (guardIdx, info) =>
      if info.file = inFile then
        fdgImplList.alter (toLex (guardIdx, info.index)) fun name => name.getD DRE.name
      else fdgImplList

/-- The variables that the file defines, with the functions they are for. -/
def fdgImplList (unit : TranslationUnit) : OrderedMap (Nat ×ₗ Nat) Str :=
  unit.functionDecayExprList.foldl (maps.tryEmplace unit.inFile) .empty

/-- The line that defines a variable. -/
def fdgImplLine (impl : (Nat ×ₗ Nat) × Str) : Str :=
  "LORE_FDG_IMPL(".toList ++ Nat.toDigits 10 ((ofLex impl.1).1 + 1) ++ ", ".toList ++
    Nat.toDigits 10 ((ofLex impl.1).2 + 1) ++ ", ".toList ++ impl.2 ++ ")\n".toList

def fdgImplText (unit : TranslationUnit) : Str :=
  if (maps.fdgImplList unit).entries = [] then []
  else "\n".toList ++ (maps.fdgImplList unit).entries.flatMap fdgImplLine ++ "\n".toList

/-- The file after the command: it is written only if there is something to insert. -/
def rewrite (unit : TranslationUnit) (text : Str) : Str :=
  if (maps.insertions unit).ranges = [] ∧ maps.fdgImplText unit = [] then text
  else
    let rewriter := (Rewriter.ofText text).wrap (maps.insertions unit)
    if maps.fdgImplText unit = [] then rewriter.write
    else (rewriter.insertText text.length (maps.fdgImplText unit) true).write

end IndexMaps

/-! ## Numbers -/

variable {stat : SourceStatistics}

theorem idxOf?_eq_some_iff {α : Type*} [BEq α] [LawfulBEq α] {l : List α} (hl : l.Nodup) {a : α}
    {i : Nat} : l.idxOf? a = some i ↔ l[i]? = some a := by
  rw [List.idxOf?_eq_some_iff]
  constructor
  · rintro ⟨h, rfl, -⟩
    exact List.getElem?_eq_getElem h
  · intro h
    obtain ⟨hi, rfl⟩ := List.getElem?_eq_some_iff.mp h
    refine ⟨hi, rfl, fun j hj => ?_⟩
    rw [hl.getElem_inj_iff]
    omega

theorem callGuard_eq_some_iff {CE : CallExpr} {i : Nat} :
    stat.indexMaps.callGuard CE = some (.ccg i) ↔
      (SortedMap.elements stat.callbackCheckGuardSignatures)[i]? = some CE.type := by
  rw [IndexMaps.callGuard, Option.map_eq_some_iff]
  simp only [Guard.ccg.injEq, exists_eq_right, SourceStatistics.indexMaps]
  exact idxOf?_eq_some_iff (Finset.sort_nodup stat.callbackCheckGuardSignatures (· ≤ ·))

/-- The row of a table that is kept in order. -/
theorem idxOf?_entries {V : Type*} {m : OrderedMap Str V} {key : Str} {i : Nat} :
    (m.entries.map Prod.fst).idxOf? key = some i ↔ ∃ value, m.entries[i]? = some (key, value) := by
  rw [idxOf?_eq_some_iff (SortedMap.nodup_of_sorted m.sorted), List.getElem?_map,
    Option.map_eq_some_iff]
  constructor
  · rintro ⟨⟨key', value⟩, h, rfl⟩
    exact ⟨value, h⟩
  · rintro ⟨value, h⟩
    exact ⟨_, h, rfl⟩

theorem instanceMap_eq_some_iff {locations : Locations} {location : Str} {info : FDGInstanceInfo} :
    instanceMap locations location = some info ↔
      locations.entries[info.index]? = some (location, info.file) := by
  rw [instanceMap]
  simp only [Option.bind_eq_bind, Option.bind_eq_some_iff, Option.pure_def, Option.some.injEq]
  constructor
  · rintro ⟨j, hj, entry, hentry, rfl⟩
    obtain ⟨file, hfile⟩ := idxOf?_entries.mp hj
    obtain rfl := Option.some.inj (hfile.symm.trans hentry)
    exact hfile
  · intro h
    exact ⟨info.index, idxOf?_entries.mpr ⟨_, h⟩, _, h, rfl⟩

/-- The row of the table of decays, and the place in it. -/
theorem decayInstance_eq_some_iff {DRE : DeclRefExpr} {i : Nat} {info : FDGInstanceInfo} :
    stat.indexMaps.decayInstance DRE = some (i, info) ↔
      ∃ locations, stat.functionDecayGuardStats.entries[i]? = some (DRE.type, locations) ∧
        locations.entries[info.index]? = some (DRE.location, info.file) := by
  rw [IndexMaps.decayInstance]
  simp only [SourceStatistics.indexMaps, Option.bind_eq_bind, Option.bind_eq_some_iff,
    Option.pure_def, Option.some.injEq, Prod.mk.injEq, List.getElem?_map, Option.map_eq_some_iff]
  constructor
  · rintro ⟨i', hi', map, ⟨guard, hguard, rfl⟩, info', hinfo, rfl, rfl⟩
    obtain ⟨locations, hlocations⟩ := idxOf?_entries.mp hi'
    obtain rfl := Option.some.inj (hlocations.symm.trans hguard)
    exact ⟨locations, hlocations, instanceMap_eq_some_iff.mp hinfo⟩
  · rintro ⟨locations, hlocations, hinfo⟩
    exact ⟨i, idxOf?_entries.mpr ⟨_, hlocations⟩, _, ⟨_, hlocations, rfl⟩, info,
      instanceMap_eq_some_iff.mpr hinfo, rfl, rfl⟩

/-! ## The variables of a file -/

/-- A file defines the variables of the places that are recorded for it and that it refers to. -/
theorem mem_fdgImplList_iff {unit : TranslationUnit} {i j : Nat} :
    toLex (i, j) ∈ (stat.indexMaps.fdgImplList unit).entries.map Prod.fst ↔
      ∃ type locations location, stat.functionDecayGuardStats.entries[i]? = some (type, locations) ∧
        locations.entries[j]? = some (location, unit.inFile) ∧ unit.Decays type location := by
  have hfold (decays : List DeclRefExpr) (impls : OrderedMap (Nat ×ₗ Nat) Str) :
      toLex (i, j) ∈ (decays.foldl (stat.indexMaps.tryEmplace unit.inFile) impls).entries.map
          Prod.fst ↔
        toLex (i, j) ∈ impls.entries.map Prod.fst ∨
          ∃ DRE ∈ decays, stat.indexMaps.decayInstance DRE = some (i, ⟨j, unit.inFile⟩) := by
    induction decays generalizing impls with
    | nil => simp
    | cons DRE decays ih =>
        have hstep : toLex (i, j) ∈ (stat.indexMaps.tryEmplace unit.inFile impls DRE).entries.map
              Prod.fst ↔
            toLex (i, j) ∈ impls.entries.map Prod.fst ∨
              stat.indexMaps.decayInstance DRE = some (i, ⟨j, unit.inFile⟩) := by
          rw [IndexMaps.tryEmplace]
          split
          next hnone => simp [hnone]
          next guardIdx info hsome =>
            obtain ⟨index, file⟩ := info
            rw [hsome]
            split
            next hfile =>
              rw [OrderedMap.mem_keys_alter]
              simp only at hfile
              simp only [EmbeddingLike.apply_eq_iff_eq, Prod.mk.injEq, Option.some.injEq,
                FDGInstanceInfo.mk.injEq, hfile, and_true]
              tauto
            next hfile =>
              simp only at hfile
              simp [hfile]
        rw [List.foldl_cons, ih, hstep, List.exists_mem_cons_iff, or_assoc]
  rw [IndexMaps.fdgImplList, hfold]
  simp only [OrderedMap.entries_empty, List.map_nil, List.not_mem_nil, false_or,
    decayInstance_eq_some_iff, TranslationUnit.Decays]
  constructor
  · rintro ⟨DRE, hDRE, locations, hrow, hplace⟩
    exact ⟨_, locations, _, hrow, hplace, DRE, hDRE, rfl, rfl⟩
  · rintro ⟨_, locations, _, hrow, hplace, DRE, hDRE, rfl, rfl⟩
    exact ⟨DRE, hDRE, locations, hrow, hplace⟩

/-! ## The file -/

/-- A file that calls back, and refers to a function that it has to define the variable for. -/
def callingUnit : TranslationUnit :=
  ⟨"a.c".toList, [⟨"void (*)(void)".toList, ⟨0, 2, by decide⟩⟩],
    [⟨"int (*)(int)".toList, "f.h:1:1".toList, "go".toList, ⟨5, 7, by decide⟩⟩]⟩

def callingMaps : IndexMaps where
  CCGIndexMap guard := if guard = "void (*)(void)".toList then some 0 else none
  FDGIndexMap guard := if guard = "int (*)(int)".toList then some 0 else none
  FDGInstanceInfoMaps :=
    [fun location => if location = "f.h:1:1".toList then some ⟨0, "a.c".toList⟩ else none]

end Lorelei.HLR
