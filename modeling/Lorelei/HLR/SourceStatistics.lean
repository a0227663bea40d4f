import Lorelei.TLC.ManifestSummary

/-!
# The statistics of source files

`SourceStatistics` goes from `stat` to the other commands in a file, like the summary of the
manifest. The guards of function decays are a map of maps: under a signature, the places
where functions of this type are declared, each with a file that refers to the function.
A signature without such places is written, and left out when the file is read.
-/

namespace Lorelei.HLR

open Support TLCApi

/-- `FunctionDecayGuardData::locations`. -/
abbrev Locations := OrderedMap Str Str

structure SourceStatistics where
  filesNeedPatch : Finset Str
  callbackCheckGuardSignatures : Finset Str
  functionDecayGuardStats : OrderedMap Str Locations

namespace SourceStatistics

def empty : SourceStatistics := ⟨∅, ∅, .empty⟩

/-! ## Writing -/

/-- The loop over the locations of a guard. -/
def locationsObj (locations : Locations) : Members :=
  (locations.entries.foldl (fun (obj : OrderedMap Str Json) location =>
    obj.alter location.1 fun _ => .string location.2) .empty).entries

def decayGuardObj (guard : Str × Locations) : Json :=
  .object (Members.set (Members.set [] "signature" (.string guard.1)) "locations"
    (.object (locationsObj guard.2)))

/-- The value that `saveAsJson` builds. -/
def root (s : SourceStatistics) : Members :=
  Members.set (Members.set (Members.set []
    "filesNeedPatch" (.array ((SortedMap.elements s.filesNeedPatch).map .string)))
    "callbackCheckGuardSignatures"
      (.array ((SortedMap.elements s.callbackCheckGuardSignatures).map .string)))
    "functionDecayGuardStats" (.array (s.functionDecayGuardStats.entries.map decayGuardObj))

/-- `saveAsJson`: what the file holds, or the error. -/
def saveAsJson (codec : JsonCodec) (s : SourceStatistics) (openError : Option Str)
    (hasError : Bool) : Except Str Str :=
  match openError with
  | some message => .error message
  | none =>
    if hasError then .error "Failed to write JSON to file".toList
    else .ok (codec.write (.object s.root))

/-! ## Reading -/

/-- A loop that fills a set of strings. -/
def readString (loaded : Finset Str) (item : Json) : Finset Str :=
  match item.getAsString with
  | none => loaded
  | some str => insert str loaded

/-- `locations.insert`. -/
def readLocation (locations : Locations) (loc : Str × Json) : Locations :=
  match loc.2.getAsString with
  | none => locations
  | some locStr => locations.alter loc.1 fun file => file.getD locStr

/-- The body of the loop over the guards. -/
def readGuard (loaded : OrderedMap Str Locations) (FDG : Json) : OrderedMap Str Locations :=
  match FDG.getAsObject with
  | none => loaded
  | some obj =>
    match obj.getString "signature" with
    | none => loaded
    | some signature =>
      let locations := ((obj.getObject "locations").getD []).foldl readLocation .empty
      if locations.entries = [] then loaded
      else loaded.alter signature fun data => data.getD locations

/-- What is committed after the whole file has been read. -/
def ofMembers (obj : Members) : SourceStatistics where
  filesNeedPatch := ((obj.getArray "filesNeedPatch").getD []).foldl readString ∅
  callbackCheckGuardSignatures :=
    ((obj.getArray "callbackCheckGuardSignatures").getD []).foldl readString ∅
  functionDecayGuardStats :=
    ((obj.getArray "functionDecayGuardStats").getD []).foldl readGuard .empty

/-- `loadFromJson`, from what reading the file gives: the statistics after the call, and the
error message if it returns `false`. -/
def loadFromJson (codec : JsonCodec) (s : SourceStatistics) (file : Except Str Str) :
    SourceStatistics × Except Str Unit :=
  match file with
  | .error message => (s, .error message)
  | .ok buffer =>
    match codec.parse buffer with
    | .error message => (s, .error message)
    | .ok json =>
      match json.getAsObject with
      | none => (s, .error "not an object".toList)
      | some obj => (ofMembers obj, .ok ())

/-! ## The round trip -/

variable {s : SourceStatistics}

/-- The guards that have a place. -/
def placed (guards : OrderedMap Str Locations) : OrderedMap Str Locations :=
  ⟨guards.entries.filter fun guard => guard.2.entries ≠ [], guards.sorted.filter _⟩

/-- What comes back from a file. -/
def prune (s : SourceStatistics) : SourceStatistics :=
  { s with functionDecayGuardStats := placed s.functionDecayGuardStats }

theorem entries_locationsObj (locations : Locations) :
    locationsObj locations = locations.entries.map fun p => (p.1, .string p.2) := by
  have hsorted : SortedMap.Sorted Prod.fst
      (locations.entries.map fun p => (p.1, Json.string p.2)) :=
    List.pairwise_map.mpr locations.sorted
  have hfold : (((locations.entries.map fun p => (p.1, Json.string p.2)).map id).foldl
      (fun obj p => obj.alter p.1 fun _ => p.2) OrderedMap.empty).entries = _ :=
    OrderedMap.entries_foldl (fun _ p _ => ⟨fun _ => p.2, rfl, rfl⟩) hsorted
  rw [List.map_id, List.foldl_map] at hfold
  exact hfold

theorem foldl_readLocation (locations : Locations) :
    (locationsObj locations).foldl readLocation .empty = locations := by
  rw [entries_locationsObj]
  exact OrderedMap.foldl_eq_of_entries fun m p _ => ⟨fun file => file.getD p.2, rfl, rfl⟩

theorem readGuard_decayGuardObj (loaded : OrderedMap Str Locations) (guard : Str × Locations) :
    readGuard loaded (decayGuardObj guard) =
      if guard.2.entries = [] then loaded
      else loaded.alter guard.1 fun data => data.getD guard.2 := by
  have hsignature : (Members.set (Members.set [] "signature" (.string guard.1)) "locations"
      (.object (locationsObj guard.2))).getString "signature" = some guard.1 := by
    rw [Members.getString, Members.get_set_of_ne _ _ (by decide), Members.get_set]
    rfl
  have hlocations : (Members.set (Members.set [] "signature" (.string guard.1)) "locations"
      (.object (locationsObj guard.2))).getObject "locations" = some (locationsObj guard.2) := by
    rw [Members.getObject, Members.get_set]
    rfl
  simp only [readGuard, decayGuardObj, Json.getAsObject, hsignature, hlocations, Option.getD_some,
    foldl_readLocation]

/-- A loop that ignores some items sees the others only. -/
theorem foldl_map_filter {α β σ : Type*} {step : σ → β → σ} {item : α → β} (keep : α → Bool)
    {l : List α} (h : ∀ st, ∀ a ∈ l, keep a = false → step st (item a) = st) (st : σ) :
    (l.map item).foldl step st = ((l.filter keep).map item).foldl step st := by
  induction l generalizing st with
  | nil => rfl
  | cons a l ih =>
      have hrest := fun st => ih (fun st b hb => h st b (List.mem_cons_of_mem a hb)) st
      rw [List.map_cons, List.foldl_cons, List.filter_cons]
      cases hkeep : keep a with
      | false => simpa [h st a List.mem_cons_self hkeep] using hrest st
      | true => simpa using hrest _

theorem foldl_readGuard (guards : OrderedMap Str Locations) :
    (guards.entries.map decayGuardObj).foldl readGuard .empty = placed guards := by
  rw [foldl_map_filter fun guard => guard.2.entries ≠ []]
  · refine OrderedMap.foldl_eq_of_entries (m := placed guards) fun loaded guard hguard => ?_
    have hplaced := List.of_mem_filter hguard
    refine ⟨fun data => data.getD guard.2, rfl, ?_⟩
    rw [readGuard_decayGuardObj, if_neg (by simpa using hplaced)]
  · intro loaded guard _ hempty
    rw [readGuard_decayGuardObj, if_pos (by simpa using hempty)]

theorem foldl_readString (names : Finset Str) :
    ((SortedMap.elements names).map Json.string).foldl readString ∅ = names := by
  have hfold := ManifestSummary.foldl_readMissingFunction (SortedMap.elements names) ∅
  rw [Finset.sort_toFinset, Finset.union_empty] at hfold
  exact hfold

theorem ofMembers_root (s : SourceStatistics) : ofMembers s.root = s.prune := by
  have hfiles : s.root.getArray "filesNeedPatch" =
      some ((SortedMap.elements s.filesNeedPatch).map .string) := by
    rw [root, Members.getArray, Members.get_set_of_ne _ _ (by decide),
      Members.get_set_of_ne _ _ (by decide), Members.get_set]
    rfl
  have hcalls : s.root.getArray "callbackCheckGuardSignatures" =
      some ((SortedMap.elements s.callbackCheckGuardSignatures).map .string) := by
    rw [root, Members.getArray, Members.get_set_of_ne _ _ (by decide), Members.get_set]
    rfl
  have hguards : s.root.getArray "functionDecayGuardStats" =
      some (s.functionDecayGuardStats.entries.map decayGuardObj) := by
    rw [root, Members.getArray, Members.get_set]
    rfl
  rw [ofMembers, hfiles, hcalls, hguards, Option.getD_some, Option.getD_some, Option.getD_some,
    foldl_readString, foldl_readString, foldl_readGuard]
  rfl

theorem prune_eq_self_iff :
    s.prune = s ↔ ∀ guard ∈ s.functionDecayGuardStats.entries, guard.2.entries ≠ [] := by
  obtain ⟨files, signatures, guards⟩ := s
  simp only [prune, placed, SourceStatistics.mk.injEq, OrderedMap.ext_iff, List.filter_eq_self,
    decide_eq_true_eq, true_and]

/-! ## The file -/

/-- All strings are valid UTF-8. -/
structure AllUtf8 (s : SourceStatistics) : Prop where
  filesNeedPatch : ∀ file ∈ s.filesNeedPatch, Utf8 file
  callbackCheckGuardSignatures : ∀ signature ∈ s.callbackCheckGuardSignatures, Utf8 signature
  signatures : ∀ guard ∈ s.functionDecayGuardStats.entries, Utf8 guard.1
  locations : ∀ guard ∈ s.functionDecayGuardStats.entries, ∀ location ∈ guard.2.entries,
    Utf8 location.1 ∧ Utf8 location.2

theorem allUtf8_strings {names : Finset Str} (h : ∀ name ∈ names, Utf8 name) :
    (Json.array ((SortedMap.elements names).map .string)).AllUtf8 := by
  refine .array fun item hitem => ?_
  obtain ⟨name, hname, rfl⟩ := List.mem_map.mp hitem
  exact .string (h name ((Finset.mem_sort _).mp hname))

theorem AllUtf8.root (h : s.AllUtf8) : (Json.object s.root).AllUtf8 := by
  have hguards : (Json.array (s.functionDecayGuardStats.entries.map decayGuardObj)).AllUtf8 := by
    refine .array fun item hitem => ?_
    obtain ⟨guard, hguard, rfl⟩ := List.mem_map.mp hitem
    have hlocations : Members.AllUtf8 (locationsObj guard.2) := by
      rw [entries_locationsObj]
      constructor
      all_goals
        intro member hmember
        obtain ⟨location, hlocation, rfl⟩ := List.mem_map.mp hmember
      · exact (h.locations guard hguard location hlocation).1
      · exact .string (h.locations guard hguard location hlocation).2
    exact ((Members.allUtf8_nil.set (by decide) (.string (h.signatures guard hguard))).set
      (by decide) hlocations.object).object
  exact (((Members.allUtf8_nil.set (by decide) (allUtf8_strings h.filesNeedPatch)).set (by decide)
    (allUtf8_strings h.callbackCheckGuardSignatures)).set (by decide) hguards).object

theorem loadFromJson_saveAsJson {codec : JsonCodec} (h : s.AllUtf8)
    (hjson : codec.RoundTrips (.object s.root)) {openError : Option Str} {hasError : Bool}
    {text : Str} (hsave : s.saveAsJson codec openError hasError = .ok text)
    (before : SourceStatistics) : before.loadFromJson codec (.ok text) = (s.prune, .ok ()) := by
  have htext : codec.write (.object s.root) = text := by
    cases openError with
    | some message => cases hsave
    | none =>
      cases hasError with
      | true => cases hsave
      | false => exact Except.ok.inj hsave
  have hparse : codec.parse text = .ok (.object s.root) := htext ▸ hjson h.root
  simp only [loadFromJson, hparse, Json.getAsObject, ofMembers_root]

theorem eq_of_loadFromJson_error {codec : JsonCodec} {before after : SourceStatistics}
    {file : Except Str Str} {message : Str}
    (h : before.loadFromJson codec file = (after, .error message)) : after = before := by
  simp only [loadFromJson] at h
  split at h
  · exact (Prod.mk.inj h).1.symm
  · split at h
    · exact (Prod.mk.inj h).1.symm
    · split at h
      · exact (Prod.mk.inj h).1.symm
      · cases (Prod.mk.inj h).2

/-- Statistics with a guard that has a place, and one that has none. -/
def twoGuards : SourceStatistics where
  filesNeedPatch := {"a.c".toList}
  callbackCheckGuardSignatures := ∅
  functionDecayGuardStats :=
    (OrderedMap.empty.alter "int (*)(int)".toList fun _ =>
      OrderedMap.empty.alter "f.h:1:1".toList fun _ => "a.c".toList).alter
        "void (*)(void)".toList fun _ => .empty

/-- The file of these statistics, as it is written. -/
def twoGuardsText : Str :=
  ("\x7b\n    \"callbackCheckGuardSignatures\": [],\n    \"filesNeedPatch\": [\n" ++
    "        \"a.c\"\n    ],\n    \"functionDecayGuardStats\": [\n        \x7b\n" ++
    "            \"locations\": \x7b\n                \"f.h:1:1\": \"a.c\"\n            \x7d,\n" ++
    "            \"signature\": \"int (*)(int)\"\n        \x7d,\n        \x7b\n" ++
    "            \"locations\": \x7b\x7d,\n            \"signature\": \"void (*)(void)\"\n" ++
    "        \x7d\n    ]\n\x7d").toList

/-- A codec that knows this file. -/
def twoGuardsCodec : JsonCodec where
  write _ := twoGuardsText
  parse text :=
    if text = twoGuardsText then .ok (.object twoGuards.root)
    else .error "Expected a value".toList

theorem allUtf8_twoGuards : twoGuards.AllUtf8 where
  filesNeedPatch file hfile := by
    obtain rfl := Finset.mem_singleton.mp hfile
    exact utf8_of_ascii (by decide)
  callbackCheckGuardSignatures signature hsignature := absurd hsignature (Finset.notMem_empty _)
  signatures guard hguard := by
    have hmem : guard.1 ∈ ["int (*)(int)".toList, "void (*)(void)".toList] :=
      List.mem_map_of_mem hguard
    simp only [List.mem_cons, List.not_mem_nil, or_false] at hmem
    rcases hmem with h | h <;> rw [h] <;> exact utf8_of_ascii (by decide)
  locations guard hguard location hlocation := by
    have hall : (twoGuards.functionDecayGuardStats.entries.flatMap fun guard => guard.2.entries) =
        [("f.h:1:1".toList, "a.c".toList)] := rfl
    have hmem := hall ▸ List.mem_flatMap.mpr ⟨guard, hguard, hlocation⟩
    obtain rfl := List.mem_singleton.mp hmem
    exact ⟨utf8_of_ascii (by decide), utf8_of_ascii (by decide)⟩

theorem twoGuardsCodec_roundTrips : twoGuardsCodec.RoundTrips (.object twoGuards.root) := by
  intro _
  rw [twoGuardsCodec]
  simp only [if_true]

end SourceStatistics

end Lorelei.HLR
