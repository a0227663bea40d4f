import Lorelei.HLR.Rewrite
import Lorelei.Support.Path

/-!
# A batch of files

`batch` takes the statistics of all files, rewrites those that need it, and writes a header
with the macros of the guards and a source with their tables. The files are put together by
the linker: the tables refer to the variables of all guards, those of the calls are defined
in the same source, and those of the decays in the files that are recorded for them.
-/

namespace Lorelei.HLR

open Support

/-! ## The guards -/

namespace SourceStatistics

variable (stat : SourceStatistics)

/-- The guards of calls, in order. -/
def ccgs : List Guard :=
  (List.range (SortedMap.elements stat.callbackCheckGuardSignatures).length).map .ccg

/-- The guards of one type of functions. -/
def instances (i : Nat) (locations : Locations) : List Guard :=
  (List.range locations.entries.length).map (.fdg i)

/-- The guards of decays, in order. -/
def fdgs : List Guard :=
  stat.functionDecayGuardStats.entries.zipIdx.flatMap fun guard => instances guard.2 guard.1.2

end SourceStatistics

namespace Guard

/-- `CCG` or `FDG`. -/
def kind : Guard → Str
  | ccg _ => "CCG".toList
  | fdg _ _ => "FDG".toList

/-- The numbers of a guard, with something between them. -/
def numbers (sep : String) : Guard → Str
  | ccg index => Nat.toDigits 10 (index + 1)
  | fdg guardIdx instanceIdx =>
      Nat.toDigits 10 (guardIdx + 1) ++ sep.toList ++ Nat.toDigits 10 (instanceIdx + 1)

/-- The name of the variable of a guard. -/
def variableName : Guard → Str
  | ccg index => "LoreFileContext_CCG_Tramp_".toList ++ (ccg index).numbers "_"
  | fdg guardIdx instanceIdx =>
      "LoreFileContext_FDG_Proc_".toList ++ (fdg guardIdx instanceIdx).numbers "_"

def declLine (guard : Guard) : Str :=
  "LORE_".toList ++ guard.kind ++ "_DECL(".toList ++ guard.numbers ", " ++ ")\n".toList

def defineLine (guard : Guard) : Str :=
  "#define ".toList ++ guard.macroName ++ "(X) LORE_".toList ++ guard.kind ++ "_GET(".toList ++
    guard.numbers ", " ++ ", (X))\n".toList

end Guard

/-! ## The output -/

namespace SourceStatistics

variable (stat : SourceStatistics)

/-- `LoreFileContext.h`, with the text of the resource. -/
def commonHeader (fileContext : Str) : Str :=
  "#pragma once\n\n".toList ++ fileContext ++ "\n\n".toList ++
    stat.ccgs.flatMap Guard.declLine ++ "\n".toList ++
    stat.fdgs.flatMap Guard.declLine ++ "\n".toList ++
    stat.ccgs.flatMap Guard.defineLine ++ "\n".toList ++
    stat.fdgs.flatMap Guard.defineLine

/-- The rows of the table of calls. -/
def ccgRows : List (Str × Guard) :=
  (SortedMap.elements stat.callbackCheckGuardSignatures).zipIdx.map fun guard =>
    (guard.1, .ccg guard.2)

/-- The rows of the table of decays, each with its own table. -/
def fdgRows : List (Str × Nat × List Guard) :=
  stat.functionDecayGuardStats.entries.zipIdx.map fun guard =>
    (guard.1.1, guard.1.2.entries.length, instances guard.2 guard.1.2)

def ccgRowLine (row : Str × Guard) : Str :=
  "    \x7b\"".toList ++ row.1 ++ "\", &".toList ++ row.2.variableName ++ "\x7d,\n".toList

/-- The name of the table of one type of functions. -/
def instancesName (i : Nat) : Str :=
  "LoreFileContext_FDG_Proc_".toList ++ Nat.toDigits 10 (i + 1) ++ "_instances".toList

def instancesText (row : (Str × Nat × List Guard) × Nat) : Str :=
  "static struct LoreStaticFunctionDecayGuardPair *".toList ++ instancesName row.2 ++
    "[] = \x7b\n".toList ++
    row.1.2.2.flatMap (fun guard => "    &".toList ++ guard.variableName ++ ",\n".toList) ++
    "\x7d;\n\n".toList

def fdgRowLine (row : (Str × Nat × List Guard) × Nat) : Str :=
  "    \x7b\"".toList ++ row.1.1 ++ "\", ".toList ++ Nat.toDigits 10 row.1.2.1 ++ ", ".toList ++
    instancesName row.2 ++ "\x7d,\n".toList

/-- `LoreFileContext.c`, up to the context. -/
def tablesText : Str :=
  stat.ccgs.flatMap (fun guard => "LORE_CCG_IMPL(".toList ++ guard.numbers ", " ++ ")\n".toList) ++
    "static struct LoreStaticCallCheckGuardInfo LoreFileContext_CCGs[] = \x7b\n".toList ++
    stat.ccgRows.flatMap ccgRowLine ++ "\x7d;\n\n".toList ++
    stat.fdgRows.zipIdx.flatMap instancesText ++
    "static struct LoreStaticFunctionDecayGuardInfo LoreFileContext_FDGs[] = \x7b\n".toList ++
    stat.fdgRows.zipIdx.flatMap fdgRowLine ++ "\x7d;\n\n".toList

end SourceStatistics

/-- What a source leaves to the linker. -/
structure ObjectFile where
  defines : List Guard
  refers : List Guard

/-- The variables of `LoreFileContext.c`. -/
def SourceStatistics.contextFile (stat : SourceStatistics) : ObjectFile where
  defines := stat.ccgs
  refers := stat.ccgRows.map Prod.snd ++ stat.fdgRows.flatMap fun row => row.2.2

/-- The variables of a file that has been rewritten. -/
def IndexMaps.unitFile (maps : IndexMaps) (unit : TranslationUnit) : ObjectFile where
  defines := (maps.fdgImplList unit).entries.map fun impl =>
    .fdg (ofLex impl.1).1 (ofLex impl.1).2
  refers := (maps.guards unit).map Prod.snd

/-- The path of a file as it is compared. -/
def normalizedFile (initialCwd file : Str) : Str := lexicallyNormal (joinPath initialCwd file)

/-- The files that are rewritten. -/
def SourceStatistics.outputs (stat : SourceStatistics) (initialCwd : Str)
    (files : List TranslationUnit) : List TranslationUnit :=
  files.filter fun unit =>
    normalizedFile initialCwd unit.inFile ∈ stat.filesNeedPatch.image (normalizedFile initialCwd)

/-- What is linked. -/
def SourceStatistics.program (stat : SourceStatistics) (initialCwd : Str)
    (files : List TranslationUnit) : List ObjectFile :=
  stat.contextFile :: (stat.outputs initialCwd files).map stat.indexMaps.unitFile

/-- No variable is defined twice. -/
def DefinedOnce (program : List ObjectFile) : Prop := (program.flatMap ObjectFile.defines).Nodup

/-- Every variable that is referred to is defined. -/
def Resolved (program : List ObjectFile) : Prop :=
  ∀ file ∈ program, ∀ guard ∈ file.refers, ∃ other ∈ program, guard ∈ other.defines

/-! ## Names -/

theorem toDigits_injective : Function.Injective (Nat.toDigits 10) := by
  intro m n h
  rw [← Nat.ofDigitChars_ten_toDigits (n := m), h, Nat.ofDigitChars_ten_toDigits]

/-- Numbers with an underscore between them can be told apart. -/
theorem numbers_injective {i j i' j' : Nat}
    (h : Nat.toDigits 10 i ++ '_' :: Nat.toDigits 10 j =
      Nat.toDigits 10 i' ++ '_' :: Nat.toDigits 10 j') : i = i' ∧ j = j' := by
  have hsplit (m n : Nat) : (Nat.toDigits 10 m ++ '_' :: Nat.toDigits 10 n).span (· ≠ '_') =
      (Nat.toDigits 10 m, '_' :: Nat.toDigits 10 n) := by
    have hno : ∀ c ∈ Nat.toDigits 10 m, decide (c ≠ '_') = true := by
      intro c hc
      refine decide_eq_true ?_
      rintro rfl
      exact Nat.underscore_not_in_toDigits hc
    rw [List.span_eq_takeWhile_dropWhile, List.takeWhile_append_of_pos hno,
      List.dropWhile_append_of_pos hno]
    simp
  have hspan := congrArg (List.span (· ≠ '_')) h
  rw [hsplit, hsplit, Prod.mk.injEq] at hspan
  exact ⟨toDigits_injective hspan.1, toDigits_injective (List.cons.inj hspan.2).2⟩

theorem macroName_ccg_ne_fdg (i i' j : Nat) :
    (Guard.ccg i).macroName ≠ (Guard.fdg i' j).macroName := by
  rw [Guard.macroName_ccg, Guard.macroName_fdg]
  generalize Nat.toDigits 10 (i + 1) = tail
  generalize Nat.toDigits 10 (i' + 1) ++ '_' :: Nat.toDigits 10 (j + 1) = tail'
  have hlen : "LORE_CCG_".toList.length = "LORE_FDG_".toList.length := by decide
  exact fun h => absurd (List.append_inj h hlen).1 (by decide)

theorem macroName_injective : Function.Injective Guard.macroName := by
  intro guard guard' h
  cases guard with
  | ccg i =>
      cases guard' with
      | ccg i' =>
          rw [Guard.macroName_ccg, Guard.macroName_ccg] at h
          rw [Nat.succ.inj (toDigits_injective (List.append_cancel_left h))]
      | fdg i' j' => exact absurd h (macroName_ccg_ne_fdg i i' j')
  | fdg i j =>
      cases guard' with
      | ccg i' => exact absurd h.symm (macroName_ccg_ne_fdg i' i j)
      | fdg i' j' =>
          rw [Guard.macroName_fdg, Guard.macroName_fdg] at h
          obtain ⟨hi, hj⟩ := numbers_injective (List.append_cancel_left h)
          rw [Nat.succ.inj hi, Nat.succ.inj hj]

/-! ## The guards of the statistics -/

variable {stat : SourceStatistics} {i j : Nat}

theorem mem_ccgs_iff : Guard.ccg i ∈ stat.ccgs ↔
    ∃ type, (SortedMap.elements stat.callbackCheckGuardSignatures)[i]? = some type := by
  simp only [SourceStatistics.ccgs, List.mem_map, List.mem_range, Guard.ccg.injEq, exists_eq_right,
    List.getElem?_eq_some_iff]
  exact ⟨fun h => ⟨_, h, rfl⟩, fun ⟨_, h, _⟩ => h⟩

theorem mem_instances_iff {locations : Locations} {guard : Guard} :
    guard ∈ SourceStatistics.instances i locations ↔
      ∃ j entry, locations.entries[j]? = some entry ∧ guard = .fdg i j := by
  simp only [SourceStatistics.instances, List.mem_map, List.mem_range]
  constructor
  · rintro ⟨j, hj, rfl⟩
    exact ⟨j, _, List.getElem?_eq_getElem hj, rfl⟩
  · rintro ⟨j, entry, hentry, rfl⟩
    exact ⟨j, (List.getElem?_eq_some_iff.mp hentry).1, rfl⟩

theorem mem_fdgs_iff : Guard.fdg i j ∈ stat.fdgs ↔
    ∃ type locations entry, stat.functionDecayGuardStats.entries[i]? = some (type, locations) ∧
      locations.entries[j]? = some entry := by
  simp only [SourceStatistics.fdgs, List.mem_flatMap, mem_instances_iff, Guard.fdg.injEq]
  constructor
  · rintro ⟨⟨⟨type, locations⟩, i'⟩, hrow, j', entry, hentry, rfl, rfl⟩
    exact ⟨type, locations, entry, List.mk_mem_zipIdx_iff_getElem?.mp hrow, hentry⟩
  · rintro ⟨type, locations, entry, hrow, hentry⟩
    exact ⟨((type, locations), i), List.mk_mem_zipIdx_iff_getElem?.mpr hrow, j, entry, hentry, rfl,
      rfl⟩

theorem refers_contextFile : stat.contextFile.refers = stat.ccgs ++ stat.fdgs := by
  have hccgs : stat.ccgRows.map Prod.snd = stat.ccgs := by
    rw [SourceStatistics.ccgRows, SourceStatistics.ccgs]
    exact List.ext_getElem (by simp) (by simp)
  have hfdgs : (stat.fdgRows.flatMap fun row => row.2.2) = stat.fdgs := by
    rw [SourceStatistics.fdgRows, List.flatMap_map, SourceStatistics.fdgs]
  rw [SourceStatistics.contextFile, hccgs, hfdgs]

theorem nodup_ccgs : stat.ccgs.Nodup :=
  List.nodup_range.map fun _ _ h => Guard.ccg.inj h

/-! ## The files -/

variable {initialCwd : Str} {files : List TranslationUnit} {unit : TranslationUnit}

theorem mem_defines_unitFile_iff : Guard.fdg i j ∈ (stat.indexMaps.unitFile unit).defines ↔
    ∃ type locations location, stat.functionDecayGuardStats.entries[i]? = some (type, locations) ∧
      locations.entries[j]? = some (location, unit.inFile) ∧ unit.Decays type location := by
  rw [← mem_fdgImplList_iff, IndexMaps.unitFile, List.mem_map, List.mem_map]
  constructor
  · rintro ⟨impl, himpl, heq⟩
    obtain ⟨rfl, rfl⟩ := Guard.fdg.inj heq
    exact ⟨impl, himpl, rfl⟩
  · rintro ⟨impl, himpl, heq⟩
    exact ⟨impl, himpl, by rw [heq]; rfl⟩

theorem ccg_notMem_unitFile : Guard.ccg i ∉ (stat.indexMaps.unitFile unit).defines := by
  intro h
  obtain ⟨impl, -, heq⟩ := List.mem_map.mp h
  cases heq

theorem nodup_defines_unitFile : (stat.indexMaps.unitFile unit).defines.Nodup := by
  have hkeys := SortedMap.nodup_of_sorted (stat.indexMaps.fdgImplList unit).sorted
  have hmap : (stat.indexMaps.unitFile unit).defines =
      ((stat.indexMaps.fdgImplList unit).entries.map Prod.fst).map
        fun key => .fdg (ofLex key).1 (ofLex key).2 := by
    rw [List.map_map]
    rfl
  rw [hmap]
  refine hkeys.map fun key key' h => ?_
  obtain ⟨h₁, h₂⟩ := Guard.fdg.inj h
  exact ofLex.injective (Prod.ext h₁ h₂)

/-- The variable of a decay is in the file that is recorded for it. -/
theorem inFile_eq_of_mem {unit' : TranslationUnit} {guard : Guard}
    (h : guard ∈ (stat.indexMaps.unitFile unit).defines)
    (h' : guard ∈ (stat.indexMaps.unitFile unit').defines) : unit.inFile = unit'.inFile := by
  cases guard with
  | ccg i => exact absurd h ccg_notMem_unitFile
  | fdg i j =>
      obtain ⟨type, locations, location, hrow, hplace, -⟩ := mem_defines_unitFile_iff.mp h
      obtain ⟨type', locations', location', hrow', hplace', -⟩ := mem_defines_unitFile_iff.mp h'
      rw [hrow, Option.some.injEq, Prod.mk.injEq] at hrow'
      obtain ⟨rfl, rfl⟩ := hrow'
      rw [hplace, Option.some.injEq, Prod.mk.injEq] at hplace'
      exact hplace'.2

theorem definedOnce_program (hfiles : (files.map TranslationUnit.inFile).Nodup) :
    DefinedOnce (stat.program initialCwd files) := by
  have houtputs : ((stat.outputs initialCwd files).map TranslationUnit.inFile).Nodup :=
    hfiles.sublist (List.filter_sublist.map _)
  rw [DefinedOnce, SourceStatistics.program, List.flatMap_cons, List.nodup_append, List.flatMap_map,
    List.nodup_flatMap]
  refine ⟨nodup_ccgs, ⟨fun unit _ => nodup_defines_unitFile, ?_⟩, ?_⟩
  · refine (List.pairwise_map.mp houtputs).imp fun hne => ?_
    exact fun guard h h' => hne (inFile_eq_of_mem h h')
  · rintro guard hguard guard' hguard' rfl
    obtain ⟨i, -, rfl⟩ := List.mem_map.mp hguard
    obtain ⟨unit, -, hmem⟩ := List.mem_flatMap.mp hguard'
    exact ccg_notMem_unitFile hmem

/-- A guard in a file is one of those that the header declares. -/
theorem refers_unitFile {guard : Guard} (h : guard ∈ (stat.indexMaps.unitFile unit).refers) :
    guard ∈ stat.ccgs ++ stat.fdgs := by
  obtain ⟨⟨range, _⟩, hmem, rfl⟩ := List.mem_map.mp h
  rcases List.mem_append.mp hmem with hmem | hmem
  · obtain ⟨CE, -, hguard⟩ := List.mem_filterMap.mp hmem
    obtain ⟨guard, hguard, heq⟩ := Option.map_eq_some_iff.mp hguard
    cases heq
    obtain ⟨i, hi, rfl⟩ := Option.map_eq_some_iff.mp hguard
    have hrow := callGuard_eq_some_iff.mp hguard
    exact List.mem_append_left _ (mem_ccgs_iff.mpr ⟨_, hrow⟩)
  · obtain ⟨DRE, -, hguard⟩ := List.mem_filterMap.mp hmem
    obtain ⟨guard, hguard, heq⟩ := Option.map_eq_some_iff.mp hguard
    cases heq
    obtain ⟨⟨i, info⟩, hinst, rfl⟩ := Option.map_eq_some_iff.mp hguard
    obtain ⟨locations, hrow, hplace⟩ := decayInstance_eq_some_iff.mp hinst
    exact List.mem_append_right _ (mem_fdgs_iff.mpr ⟨_, _, _, hrow, hplace⟩)

/-- Each guard in a file has the row of its type in the tables, and at a decay also the place
where the function is declared. -/
structure Numbered (stat : SourceStatistics) (unit : TranslationUnit) : Prop where
  declared : ∀ guard ∈ (stat.indexMaps.unitFile unit).refers, guard ∈ stat.ccgs ++ stat.fdgs
  calls : ∀ CE ∈ unit.callbackInvokeExprList, ∀ i,
    stat.indexMaps.callGuard CE = some (.ccg i) →
      stat.ccgRows[i]? = some (CE.type, .ccg i)
  decays : ∀ DRE ∈ unit.functionDecayExprList, ∀ i j,
    stat.indexMaps.decayGuard DRE = some (.fdg i j) →
      ∃ locations file, stat.functionDecayGuardStats.entries[i]? = some (DRE.type, locations) ∧
        locations.entries[j]? = some (DRE.location, file)

theorem numbered (stat : SourceStatistics) (unit : TranslationUnit) : Numbered stat unit where
  declared _ h := refers_unitFile h
  calls CE _ i h := by
    have hrow := callGuard_eq_some_iff.mp h
    rw [SourceStatistics.ccgRows, List.getElem?_map, List.getElem?_zipIdx, hrow]
    simp
  decays DRE _ i j h := by
    obtain ⟨⟨i', info⟩, hinst, heq⟩ := Option.map_eq_some_iff.mp h
    obtain ⟨rfl, rfl⟩ := Guard.fdg.inj heq
    obtain ⟨locations, hrow, hplace⟩ := decayInstance_eq_some_iff.mp hinst
    exact ⟨locations, _, hrow, hplace⟩

/-- The place is recorded for a file. -/
theorem fileOf_eq_some_iff {type location file : Str} :
    stat.fileOf type location = some file ↔
      ∃ (i j : Nat) (locations : Locations),
        stat.functionDecayGuardStats.entries[i]? = some (type, locations) ∧
          locations.entries[j]? = some (location, file) := by
  rw [SourceStatistics.fileOf, Option.bind_eq_some_iff]
  simp only [OrderedMap.find_eq_some_iff, List.mem_iff_getElem?]
  constructor
  · rintro ⟨locations, ⟨i, hrow⟩, j, hplace⟩
    exact ⟨i, j, locations, hrow, hplace⟩
  · rintro ⟨i, j, locations, hrow, hplace⟩
    exact ⟨locations, ⟨i, hrow⟩, j, hplace⟩

variable {requestedSignatures : Finset Str} {units : List TranslationUnit}

/-- A file that is recorded for a place refers to the function there. -/
theorem SourceStatistics.Probed.exists_decays (h : stat.Probed requestedSignatures units)
    {type location file : Str} (hfile : stat.fileOf type location = some file) :
    type ∈ requestedSignatures ∧
      ∃ unit ∈ units, unit.inFile = file ∧ unit.Decays type location := by
  rw [h.fileOf] at hfile
  split at hfile
  next hrequested =>
    obtain ⟨unit, hfind, rfl⟩ := Option.map_eq_some_iff.mp hfile
    have hdecays : unit.Decays type location := by simpa using List.find?_some hfind
    exact ⟨hrequested, unit, List.mem_of_find?_eq_some hfind, rfl, hdecays⟩
  next => cases hfile

/-- Such a file is rewritten. -/
theorem SourceStatistics.Probed.mem_filesNeedPatch (h : stat.Probed requestedSignatures units)
    {type location file : Str} (hfile : stat.fileOf type location = some file) :
    file ∈ stat.filesNeedPatch := by
  obtain ⟨hrequested, unit, hunit, rfl, DRE, hDRE, rfl, -⟩ := h.exists_decays hfile
  exact (h.files _).mpr ⟨unit, hunit, rfl, .inr ⟨DRE, hDRE, hrequested⟩⟩

/-- The program has all variables exactly if each file that is recorded for a place still
refers to the function there when it is rewritten. -/
theorem resolved_program_iff (h : stat.Probed requestedSignatures units) :
    Resolved (stat.program initialCwd files) ↔
      ∀ type location file, stat.fileOf type location = some file →
        ∃ unit ∈ files, unit.inFile = file ∧ unit.Decays type location := by
  constructor
  · intro hresolved type location file hfile
    obtain ⟨i, j, locations, hrow, hplace⟩ := fileOf_eq_some_iff.mp hfile
    have hrefers : Guard.fdg i j ∈ stat.contextFile.refers := by
      rw [refers_contextFile]
      exact List.mem_append_right _ (mem_fdgs_iff.mpr ⟨_, _, _, hrow, hplace⟩)
    obtain ⟨other, hother, hdefines⟩ := hresolved _ List.mem_cons_self _ hrefers
    rcases List.mem_cons.mp hother with rfl | hother
    · obtain ⟨_, -, heq⟩ := List.mem_map.mp hdefines
      cases heq
    · obtain ⟨unit, hunit, rfl⟩ := List.mem_map.mp hother
      obtain ⟨type', locations', location', hrow', hplace', hdecays⟩ :=
        mem_defines_unitFile_iff.mp hdefines
      rw [hrow, Option.some.injEq, Prod.mk.injEq] at hrow'
      obtain ⟨rfl, rfl⟩ := hrow'
      rw [hplace, Option.some.injEq, Prod.mk.injEq] at hplace'
      obtain ⟨rfl, rfl⟩ := hplace'
      exact ⟨unit, (List.mem_filter.mp hunit).1, rfl, hdecays⟩
  · intro hdecays
    -- It is enough that the guards of the statistics are all defined.
    have hdefined : ∀ guard ∈ stat.ccgs ++ stat.fdgs,
        ∃ other ∈ stat.program initialCwd files, guard ∈ other.defines := by
      intro guard hguard
      rcases List.mem_append.mp hguard with hccg | hfdg
      · exact ⟨_, List.mem_cons_self, hccg⟩
      · obtain ⟨⟨⟨type, locations⟩, i⟩, hrow, hinstance⟩ := List.mem_flatMap.mp hfdg
        obtain ⟨j, ⟨location, file⟩, hplace, rfl⟩ := mem_instances_iff.mp hinstance
        have hrow := List.mk_mem_zipIdx_iff_getElem?.mp hrow
        have hfile := fileOf_eq_some_iff.mpr ⟨i, j, locations, hrow, hplace⟩
        obtain ⟨unit, hunit, rfl, hunitDecays⟩ := hdecays _ _ _ hfile
        refine ⟨_, List.mem_cons_of_mem _ (List.mem_map_of_mem (List.mem_filter.mpr ⟨hunit, ?_⟩)),
          mem_defines_unitFile_iff.mpr ⟨_, _, _, hrow, hplace, hunitDecays⟩⟩
        exact decide_eq_true (Finset.mem_image_of_mem _ (h.mem_filesNeedPatch hfile))
    intro file hfile guard hguard
    rcases List.mem_cons.mp hfile with rfl | hfile
    · exact hdefined guard (refers_contextFile ▸ hguard)
    · obtain ⟨unit, -, rfl⟩ := List.mem_map.mp hfile
      exact hdefined guard (refers_unitFile hguard)

/-! ## The batch -/

/-- Two files that refer to one function, and one that calls back. -/
def threeFiles : List TranslationUnit :=
  [⟨"a.c".toList, [],
      [⟨"void (*)(void)".toList, "f.h:1:1".toList, "f".toList, ⟨4, 5, by decide⟩⟩]⟩,
    ⟨"b.c".toList, [],
      [⟨"void (*)(void)".toList, "f.h:1:1".toList, "f".toList, ⟨7, 8, by decide⟩⟩]⟩,
    ⟨"c.c".toList, [⟨"void (*)(void)".toList, ⟨2, 4, by decide⟩⟩], []⟩]

end Lorelei.HLR
