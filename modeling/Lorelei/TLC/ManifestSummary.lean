import Lorelei.Lib.OrderedMap
import Lorelei.Support.StringExtras
import Lorelei.TLC.Requested
import Mathlib.Data.List.Lex

/-!
# The file between `stat` and `generate`

`saveAsJson` writes a `ManifestSummary` to a file and `loadFromJson` reads it back.  The
two go over the maps and sets of the summary each in its own way: the maps are written as
arrays of objects, and filled again from the fields of these objects.  A callback is
written without the key of its entry, so that its own signature has to be that key.

`llvm::json` is a parameter.  What it has written, it reads back, if the strings are valid
UTF-8.
-/

namespace Lorelei.TLCApi

open Support TLC

/-! ## JSON -/

/-- The bytes of a text in UTF-8. -/
def utf8 (text : List Char) : Str :=
  text.flatMap fun c => (String.utf8EncodeChar c).map fun b => Char.ofNat b.toNat

/-- The string is valid UTF-8. -/
def Utf8 (s : Str) : Prop := ∃ text, s = utf8 text

/-- `llvm::json::Value`.  A number is kept as it is written, and the members of an object
are in the order of their keys. -/
inductive Json where
  | null
  | bool (value : Bool)
  | number (text : Str)
  | string (value : Str)
  | array (items : List Json)
  | object (members : List (Str × Json))

/-- `llvm::json::Object`. -/
abbrev Members := List (Str × Json)

namespace Json

def getAsString : Json → Option Str
  | .string value => some value
  | _ => none

def getAsArray : Json → Option (List Json)
  | .array items => some items
  | _ => none

def getAsObject : Json → Option Members
  | .object members => some members
  | _ => none

/-- All strings in the value are valid UTF-8. -/
inductive AllUtf8 : Json → Prop
  | null : AllUtf8 .null
  | bool (value : Bool) : AllUtf8 (.bool value)
  | number (text : Str) : AllUtf8 (.number text)
  | string {value : Str} : Utf8 value → AllUtf8 (.string value)
  | array {items : List Json} : (∀ item ∈ items, AllUtf8 item) → AllUtf8 (.array items)
  | object {members : List (Str × Json)} :
      (∀ member ∈ members, Utf8 member.1) → (∀ member ∈ members, AllUtf8 member.2) →
      AllUtf8 (.object members)

end Json

namespace Members

/-- `obj[key] = value`. -/
def set (obj : Members) (key : String) (value : Json) : Members :=
  SortedMap.alter Prod.fst key.toList (fun _ => (key.toList, value)) obj

def get (obj : Members) (key : String) : Option Json := obj.lookup key.toList

def getString (obj : Members) (key : String) : Option Str := (obj.get key).bind Json.getAsString

def getArray (obj : Members) (key : String) : Option (List Json) :=
  (obj.get key).bind Json.getAsArray

def getObject (obj : Members) (key : String) : Option Members :=
  (obj.get key).bind Json.getAsObject

end Members

/-- `llvm::json`: what `OStream::value` writes, and what `parse` makes of a text. -/
structure JsonCodec where
  write : Json → Str
  parse : Str → Except Str Json

/-- The value can be read back if its strings are valid UTF-8. -/
def JsonCodec.RoundTrips (codec : JsonCodec) (value : Json) : Prop :=
  value.AllUtf8 → codec.parse (codec.write value) = .ok value

/-! ## Summaries -/

/-- `ManifestSummary::FunctionEntry`. -/
structure FunctionEntry where
  location : Str := []
deriving DecidableEq, Repr

/-- `ManifestSummary::CallbackInfo`. -/
structure CallbackInfo where
  signature : Str := []
  alias_ : Str := []
  origin : Str := []
deriving DecidableEq, Repr

structure ManifestSummary where
  fileName : Str
  functions : ProcDirection → OrderedMap Str FunctionEntry
  missingFunctions : ProcDirection → Finset Str
  callbacks : OrderedMap Str CallbackInfo

namespace ManifestSummary

def empty : ManifestSummary := ⟨[], fun _ => .empty, fun _ => ∅, .empty⟩

def addFunction (s : ManifestSummary) (direction : ProcDirection) (name location : Str) :
    ManifestSummary :=
  { s with
    functions := Function.update s.functions direction
      ((s.functions direction).alter name fun _ => ⟨location⟩) }

def addCallbackSignature (s : ManifestSummary) (signature origin preferredAlias : Str) :
    ManifestSummary :=
  { s with
    callbacks := s.callbacks.alter signature fun info? =>
      let info := info?.getD {}
      { signature
        alias_ := if preferredAlias ≠ [] ∧ info.alias_ = [] then preferredAlias else info.alias_
        origin := if origin ≠ [] ∧ info.origin = [] then origin else info.origin } }

/-- `missingFunctions[direction].insert(name)`. -/
def addMissingFunction (s : ManifestSummary) (direction : ProcDirection) (name : Str) :
    ManifestSummary :=
  { s with
    missingFunctions := Function.update s.missingFunctions direction
      (insert name (s.missingFunctions direction)) }

/-! ## Writing -/

def functionJson (p : Str × FunctionEntry) : Json :=
  .object (Members.set (Members.set [] "name" (.string p.1)) "location" (.string p.2.location))

/-- `serializeFunctionMap`. -/
def serializeFunctionMap (map : OrderedMap Str FunctionEntry) : Json :=
  .array (map.entries.map functionJson)

/-- `serializeMissingFunctionSet`. -/
def serializeMissingFunctionSet (set : Finset Str) : Json := .array (set.sort.map .string)

def callbackJson (p : Str × CallbackInfo) : Json :=
  .object (Members.set (Members.set (Members.set [] "signature" (.string p.2.signature))
    "alias" (.string p.2.alias_)) "origin" (.string p.2.origin))

/-- An object with a value for each direction. -/
def directionsJson (value : ProcDirection → Json) : Json :=
  .object (Members.set (Members.set [] "GuestToHost" (value .guestToHost))
    "HostToGuest" (value .hostToGuest))

/-- The value that `saveAsJson` builds. -/
def root (s : ManifestSummary) : Members :=
  Members.set (Members.set (Members.set (Members.set []
    "fileName" (.string s.fileName))
    "functions" (directionsJson fun dir => serializeFunctionMap (s.functions dir)))
    "missingFunctions"
      (directionsJson fun dir => serializeMissingFunctionSet (s.missingFunctions dir)))
    "callbacks" (.array (s.callbacks.entries.map callbackJson))

/-- `saveAsJson`: what the file holds, or the error. The file may not open, and writing may
fail. -/
def saveAsJson (codec : JsonCodec) (s : ManifestSummary) (openError : Option Str)
    (hasError : Bool) : Except Str Str :=
  match openError with
  | some message => .error message
  | none =>
    if hasError then .error "Failed to write JSON to file".toList
    else .ok (codec.write (.object s.root))

/-! ## Reading -/

/-- The loop body of `parseFunctionArray`. -/
def readFunction (loaded : OrderedMap Str FunctionEntry) (item : Json) :
    OrderedMap Str FunctionEntry :=
  match item.getAsObject with
  | none => loaded
  | some itemObj =>
    match itemObj.getString "name" with
    | none => loaded
    | some name => loaded.alter name fun _ => ⟨(itemObj.getString "location").getD []⟩

def readMissingFunction (loaded : Finset Str) (item : Json) : Finset Str :=
  match item.getAsString with
  | none => loaded
  | some name => insert name loaded

def readCallback (loaded : OrderedMap Str CallbackInfo) (item : Json) :
    OrderedMap Str CallbackInfo :=
  match item.getAsObject with
  | none => loaded
  | some itemObj =>
    match itemObj.getString "signature" with
    | none => loaded
    | some signature => loaded.alter signature fun info? =>
      let info := info?.getD {}
      { signature
        alias_ := (itemObj.getString "alias").getD info.alias_
        origin := (itemObj.getString "origin").getD info.origin }

def directionKey : ProcDirection → String
  | .guestToHost => "GuestToHost"
  | .hostToGuest => "HostToGuest"

/-- What a loop makes of the array of each direction; nothing if the array is not there. -/
def readDirections {α : Type} (obj : Members) (key : String) (step : α → Json → α) (none : α)
    (dir : ProcDirection) : α :=
  match (obj.getObject key).bind fun directions => directions.getArray (directionKey dir) with
  | some items => items.foldl step none
  | .none => none

/-- What is committed after the whole file has been read. -/
def ofMembers (obj : Members) : ManifestSummary where
  fileName := (obj.getString "fileName").getD []
  functions := readDirections obj "functions" readFunction .empty
  missingFunctions := readDirections obj "missingFunctions" readMissingFunction ∅
  callbacks := ((obj.getArray "callbacks").getD []).foldl readCallback .empty

/-- `loadFromJson`, from what reading the file gives: the summary after the call, and the
error message if it returns `false`. -/
def loadFromJson (codec : JsonCodec) (s : ManifestSummary) (file : Except Str Str) :
    ManifestSummary × Except Str Unit :=
  match file with
  | .error message => (s, .error message)
  | .ok buffer =>
    match codec.parse buffer with
    | .error message => (s, .error message)
    | .ok json =>
      match json.getAsObject with
      | none => (s, .error "not an object".toList)
      | some obj => (ofMembers obj, .ok ())

/-- The summaries that the calls make over valid UTF-8, from the empty one. The file name
is a field of its own. -/
inductive Reachable : ManifestSummary → Prop
  | empty {fileName : Str} : Utf8 fileName → Reachable { empty with fileName }
  | addFunction {s : ManifestSummary} {name location : Str} (direction : ProcDirection) :
      Reachable s → Utf8 name → Utf8 location → Reachable (s.addFunction direction name location)
  | addCallbackSignature {s : ManifestSummary} {signature origin preferredAlias : Str} :
      Reachable s → Utf8 signature → Utf8 origin → Utf8 preferredAlias →
      Reachable (s.addCallbackSignature signature origin preferredAlias)
  | addMissingFunction {s : ManifestSummary} {name : Str} (direction : ProcDirection) :
      Reachable s → Utf8 name → Reachable (s.addMissingFunction direction name)

end ManifestSummary

/-! ## Members of objects -/

namespace Members

variable {obj : Members} {key key' : String} {value : Json}

theorem get_set (obj : Members) (key : String) (value : Json) :
    (obj.set key value).get key = some value := by
  rw [get, set]
  induction obj with
  | nil => simp [SortedMap.alter]
  | cons p obj ih =>
    rw [SortedMap.alter]
    split
    · simp
    · split
      · simp
      · rename_i hne
        rw [List.lookup_cons, beq_eq_false_iff_ne.mpr hne]
        exact ih

theorem get_set_of_ne (obj : Members) (value : Json) (h : key'.toList ≠ key.toList) :
    (obj.set key value).get key' = obj.get key' := by
  rw [get, get, set]
  induction obj with
  | nil => simp [SortedMap.alter, h]
  | cons p obj ih =>
    rw [SortedMap.alter]
    split
    · rw [List.lookup_cons, beq_eq_false_iff_ne.mpr h]
    · split
      · rename_i heq
        rw [List.lookup_cons, List.lookup_cons, beq_eq_false_iff_ne.mpr h, ← heq,
          beq_eq_false_iff_ne.mpr h]
      · rw [List.lookup_cons, List.lookup_cons, ih]

theorem mem_set {member : Str × Json} (h : member ∈ obj.set key value) :
    member = (key.toList, value) ∨ member ∈ obj := by
  rcases SortedMap.mem_alter h with h | ⟨_, _, h⟩ | h
  · exact .inl h
  · exact .inl h
  · exact .inr h

end Members

namespace ManifestSummary

/-! ## The round trip of the parts -/

theorem readFunction_functionJson (loaded : OrderedMap Str FunctionEntry)
    (p : Str × FunctionEntry) :
    readFunction loaded (functionJson p) = loaded.alter p.1 fun _ => p.2 := by
  have hname : (Members.set (Members.set [] "name" (.string p.1)) "location"
      (.string p.2.location)).getString "name" = some p.1 := by
    rw [Members.getString, Members.get_set_of_ne _ _ (by decide), Members.get_set]
    rfl
  have hlocation : (Members.set (Members.set [] "name" (.string p.1)) "location"
      (.string p.2.location)).getString "location" = some p.2.location := by
    rw [Members.getString, Members.get_set]
    rfl
  simp only [readFunction, functionJson, Json.getAsObject, hname, hlocation, Option.getD_some]

theorem readCallback_callbackJson (loaded : OrderedMap Str CallbackInfo)
    (p : Str × CallbackInfo) :
    readCallback loaded (callbackJson p) = loaded.alter p.2.signature fun _ => p.2 := by
  have hsignature : (Members.set (Members.set (Members.set [] "signature"
      (.string p.2.signature)) "alias" (.string p.2.alias_)) "origin"
      (.string p.2.origin)).getString "signature" = some p.2.signature := by
    rw [Members.getString, Members.get_set_of_ne _ _ (by decide),
      Members.get_set_of_ne _ _ (by decide), Members.get_set]
    rfl
  have halias : (Members.set (Members.set (Members.set [] "signature"
      (.string p.2.signature)) "alias" (.string p.2.alias_)) "origin"
      (.string p.2.origin)).getString "alias" = some p.2.alias_ := by
    rw [Members.getString, Members.get_set_of_ne _ _ (by decide), Members.get_set]
    rfl
  have horigin : (Members.set (Members.set (Members.set [] "signature"
      (.string p.2.signature)) "alias" (.string p.2.alias_)) "origin"
      (.string p.2.origin)).getString "origin" = some p.2.origin := by
    rw [Members.getString, Members.get_set]
    rfl
  simp only [readCallback, callbackJson, Json.getAsObject, hsignature, halias, horigin,
    Option.getD_some]

theorem foldl_readFunction (map : OrderedMap Str FunctionEntry) :
    (map.entries.map functionJson).foldl readFunction .empty = map :=
  OrderedMap.foldl_eq_of_entries fun m p _ => ⟨fun _ => p.2, rfl, readFunction_functionJson m p⟩

/-- The key of each entry has to be the signature in it. -/
theorem foldl_readCallback {map : OrderedMap Str CallbackInfo}
    (h : ∀ p ∈ map.entries, p.2.signature = p.1) :
    (map.entries.map callbackJson).foldl readCallback .empty = map :=
  OrderedMap.foldl_eq_of_entries fun m p hp =>
    ⟨fun _ => p.2, rfl, h p hp ▸ readCallback_callbackJson m p⟩

theorem foldl_readMissingFunction (names : List Str) (loaded : Finset Str) :
    (names.map .string).foldl readMissingFunction loaded = names.toFinset ∪ loaded := by
  induction names generalizing loaded with
  | nil => simp
  | cons name names ih =>
    rw [List.map_cons, List.foldl_cons, ih]
    simp only [readMissingFunction, Json.getAsString, List.toFinset_cons]
    rw [Finset.union_insert, Finset.insert_union]

theorem readDirections_directionsJson {α : Type} {obj : Members} {key : String}
    {items : ProcDirection → List Json} (step : α → Json → α) (none : α) (dir : ProcDirection)
    (h : obj.get key = some (directionsJson fun dir => .array (items dir))) :
    readDirections obj key step none dir = (items dir).foldl step none := by
  have harray : (Members.set (Members.set [] "GuestToHost" (.array (items .guestToHost)))
      "HostToGuest" (.array (items .hostToGuest))).getArray (directionKey dir) =
        some (items dir) := by
    cases dir with
    | guestToHost =>
      rw [directionKey, Members.getArray, Members.get_set_of_ne _ _ (by decide), Members.get_set]
      rfl
    | hostToGuest =>
      rw [directionKey, Members.getArray, Members.get_set]
      rfl
  have hitems : (obj.getObject key).bind (fun directions =>
      directions.getArray (directionKey dir)) = some (items dir) := by
    rw [Members.getObject, h]
    exact harray
  rw [readDirections, hitems]

/-- What is read of a written summary. -/
theorem ofMembers_root {s : ManifestSummary} (h : ∀ p ∈ s.callbacks.entries, p.2.signature = p.1) :
    ofMembers s.root = s := by
  have hfileName : s.root.getString "fileName" = some s.fileName := by
    rw [root, Members.getString, Members.get_set_of_ne _ _ (by decide),
      Members.get_set_of_ne _ _ (by decide), Members.get_set_of_ne _ _ (by decide),
      Members.get_set]
    rfl
  have hfunctions : readDirections s.root "functions" readFunction .empty = s.functions := by
    funext dir
    have hget : s.root.get "functions" = some (directionsJson fun dir =>
        .array ((s.functions dir).entries.map functionJson)) := by
      rw [root, Members.get_set_of_ne _ _ (by decide), Members.get_set_of_ne _ _ (by decide),
        Members.get_set]
      rfl
    rw [readDirections_directionsJson _ _ _ hget, foldl_readFunction]
  have hmissing : readDirections s.root "missingFunctions" readMissingFunction ∅ =
      s.missingFunctions := by
    funext dir
    have hget : s.root.get "missingFunctions" = some (directionsJson fun dir =>
        .array ((s.missingFunctions dir).sort.map .string)) := by
      rw [root, Members.get_set_of_ne _ _ (by decide), Members.get_set]
      rfl
    rw [readDirections_directionsJson _ _ _ hget, foldl_readMissingFunction,
      Finset.sort_toFinset, Finset.union_empty]
  have hcallbacks : s.root.getArray "callbacks" = some (s.callbacks.entries.map callbackJson) := by
    rw [root, Members.getArray, Members.get_set]
    rfl
  rw [ofMembers, hfileName, hfunctions, hmissing, hcallbacks, Option.getD_some, Option.getD_some,
    foldl_readCallback h]

end ManifestSummary

/-! ## The strings of a summary -/

theorem map_utf8EncodeChar {c : Char} (h : c.toNat < 128) :
    ((String.utf8EncodeChar c).map fun b => Char.ofNat b.toNat) = [c] := by
  have hle : c.val.toNat ≤ 127 := Nat.le_of_lt_succ h
  have hmod : c.val.toNat % 256 = c.val.toNat := Nat.mod_eq_of_lt (by omega)
  rw [String.utf8EncodeChar]
  simp only [hle, if_true, List.map_cons, List.map_nil, UInt8.toNat_ofNat', hmod]
  exact congrArg (fun d => [d]) (Char.ofNat_toNat c)

theorem utf8_of_ascii {s : Str} (h : s.all (·.toNat < 128) = true) : Utf8 s := by
  refine ⟨s, ?_⟩
  induction s with
  | nil => rfl
  | cons c s ih =>
    rw [List.all_cons, Bool.and_eq_true] at h
    have hs : utf8 (c :: s) = [c] ++ utf8 s := by
      rw [utf8, List.flatMap_cons, map_utf8EncodeChar (of_decide_eq_true h.1), utf8]
    rw [hs, ← ih h.2, List.singleton_append]

/-- The members of an object, all in valid UTF-8. -/
structure Members.AllUtf8 (obj : Members) : Prop where
  keys : ∀ member ∈ obj, Utf8 member.1
  values : ∀ member ∈ obj, member.2.AllUtf8

namespace Members

theorem AllUtf8.object {obj : Members} (h : obj.AllUtf8) : (Json.object obj).AllUtf8 :=
  .object h.keys h.values

theorem allUtf8_nil : Members.AllUtf8 [] where
  keys _ h := absurd h List.not_mem_nil
  values _ h := absurd h List.not_mem_nil

theorem AllUtf8.set {obj : Members} {key : String} {value : Json} (h : obj.AllUtf8)
    (hkey : key.toList.all (·.toNat < 128) = true) (hvalue : value.AllUtf8) :
    (obj.set key value).AllUtf8 where
  keys member hmember := by
    rcases mem_set hmember with rfl | hmember
    · exact utf8_of_ascii hkey
    · exact h.keys member hmember
  values member hmember := by
    rcases mem_set hmember with rfl | hmember
    · exact hvalue
    · exact h.values member hmember

end Members

namespace ManifestSummary

theorem allUtf8_directionsJson {value : ProcDirection → Json} (h : ∀ dir, (value dir).AllUtf8) :
    (directionsJson value).AllUtf8 :=
  ((Members.allUtf8_nil.set (by decide) (h _)).set (by decide) (h _)).object

theorem allUtf8_functionJson {p : Str × FunctionEntry} (hname : Utf8 p.1)
    (hlocation : Utf8 p.2.location) : (functionJson p).AllUtf8 :=
  ((Members.allUtf8_nil.set (by decide) (.string hname)).set (by decide)
    (.string hlocation)).object

/-- The three strings of a callback. -/
structure CallbackUtf8 (info : CallbackInfo) : Prop where
  signature : Utf8 info.signature
  alias_ : Utf8 info.alias_
  origin : Utf8 info.origin

theorem CallbackUtf8.json {p : Str × CallbackInfo} (h : CallbackUtf8 p.2) :
    (callbackJson p).AllUtf8 :=
  (((Members.allUtf8_nil.set (by decide) (.string h.signature)).set (by decide)
    (.string h.alias_)).set (by decide) (.string h.origin)).object

/-- What the calls keep: the entry of a callback is under its signature, and all strings
are valid UTF-8. -/
structure Inv (s : ManifestSummary) : Prop where
  key : ∀ p ∈ s.callbacks.entries, p.2.signature = p.1
  fileName : Utf8 s.fileName
  functions : ∀ dir, ∀ p ∈ (s.functions dir).entries, Utf8 p.1 ∧ Utf8 p.2.location
  missingFunctions : ∀ dir, ∀ name ∈ s.missingFunctions dir, Utf8 name
  callbacks : ∀ p ∈ s.callbacks.entries, CallbackUtf8 p.2

theorem Inv.root {s : ManifestSummary} (h : s.Inv) : (Json.object s.root).AllUtf8 := by
  have hfunctions : (directionsJson fun dir => serializeFunctionMap (s.functions dir)).AllUtf8 := by
    refine allUtf8_directionsJson fun dir => .array fun item hitem => ?_
    obtain ⟨p, hp, rfl⟩ := List.mem_map.mp hitem
    exact allUtf8_functionJson (h.functions dir p hp).1 (h.functions dir p hp).2
  have hmissing : (directionsJson fun dir =>
      serializeMissingFunctionSet (s.missingFunctions dir)).AllUtf8 := by
    refine allUtf8_directionsJson fun dir => .array fun item hitem => ?_
    obtain ⟨name, hname, rfl⟩ := List.mem_map.mp hitem
    exact .string (h.missingFunctions dir name ((Finset.mem_sort _).mp hname))
  have hcallbacks : (Json.array (s.callbacks.entries.map callbackJson)).AllUtf8 := by
    refine .array fun item hitem => ?_
    obtain ⟨p, hp, rfl⟩ := List.mem_map.mp hitem
    exact (h.callbacks p hp).json
  exact ((((Members.allUtf8_nil.set (by decide) (.string h.fileName)).set (by decide)
    hfunctions).set (by decide) hmissing).set (by decide) hcallbacks).object

theorem utf8_nil : Utf8 [] := ⟨[], rfl⟩

theorem inv_empty {fileName : Str} (h : Utf8 fileName) : Inv { empty with fileName } where
  key _ hp := absurd hp List.not_mem_nil
  fileName := h
  functions _ _ hp := absurd hp List.not_mem_nil
  missingFunctions _ name hname := absurd hname (Finset.notMem_empty name)
  callbacks _ hp := absurd hp List.not_mem_nil

theorem Inv.addFunction {s : ManifestSummary} (h : s.Inv) (direction : ProcDirection)
    {name location : Str} (hname : Utf8 name) (hlocation : Utf8 location) :
    (s.addFunction direction name location).Inv where
  key := h.key
  fileName := h.fileName
  missingFunctions := h.missingFunctions
  callbacks := h.callbacks
  functions dir p hp := by
    simp only [ManifestSummary.addFunction, Function.update_apply] at hp
    split at hp
    · rcases OrderedMap.mem_alter hp with rfl | ⟨_, _, rfl⟩ | hp
      · exact ⟨hname, hlocation⟩
      · exact ⟨hname, hlocation⟩
      · exact h.functions direction p hp
    · exact h.functions dir p hp

theorem Inv.addMissingFunction {s : ManifestSummary} (h : s.Inv) (direction : ProcDirection)
    {name : Str} (hname : Utf8 name) : (s.addMissingFunction direction name).Inv where
  key := h.key
  fileName := h.fileName
  functions := h.functions
  callbacks := h.callbacks
  missingFunctions dir name' hname' := by
    simp only [ManifestSummary.addMissingFunction, Function.update_apply] at hname'
    split at hname'
    · rcases Finset.mem_insert.mp hname' with rfl | hname'
      · exact hname
      · exact h.missingFunctions direction name' hname'
    · exact h.missingFunctions dir name' hname'

/-- The entry that a call leaves under a signature. -/
theorem CallbackUtf8.added {info : CallbackInfo} {signature origin preferredAlias : Str}
    (h : CallbackUtf8 info) (hsignature : Utf8 signature) (horigin : Utf8 origin)
    (halias : Utf8 preferredAlias) :
    CallbackUtf8 {
      signature
      alias_ := if preferredAlias ≠ [] ∧ info.alias_ = [] then preferredAlias else info.alias_
      origin := if origin ≠ [] ∧ info.origin = [] then origin else info.origin } where
  signature := hsignature
  alias_ := by
    dsimp only
    split
    · exact halias
    · exact h.alias_
  origin := by
    dsimp only
    split
    · exact horigin
    · exact h.origin

theorem Inv.addCallbackSignature {s : ManifestSummary} (h : s.Inv)
    {signature origin preferredAlias : Str} (hsignature : Utf8 signature) (horigin : Utf8 origin)
    (halias : Utf8 preferredAlias) :
    (s.addCallbackSignature signature origin preferredAlias).Inv where
  fileName := h.fileName
  functions := h.functions
  missingFunctions := h.missingFunctions
  key p hp := by
    rcases OrderedMap.mem_alter hp with rfl | ⟨_, _, rfl⟩ | hp
    · rfl
    · rfl
    · exact h.key p hp
  callbacks p hp := by
    rcases OrderedMap.mem_alter hp with rfl | ⟨q, hq, rfl⟩ | hp
    · exact CallbackUtf8.added ⟨utf8_nil, utf8_nil, utf8_nil⟩ hsignature horigin halias
    · exact (h.callbacks q hq).added hsignature horigin halias
    · exact h.callbacks p hp

theorem Reachable.inv {s : ManifestSummary} (h : Reachable s) : s.Inv := by
  induction h with
  | empty hfileName => exact inv_empty hfileName
  | addFunction direction _ hname hlocation ih => exact ih.addFunction direction hname hlocation
  | addCallbackSignature _ hsignature horigin halias ih =>
    exact ih.addCallbackSignature hsignature horigin halias
  | addMissingFunction direction _ hname ih => exact ih.addMissingFunction direction hname

/-! ## The file -/

theorem loadFromJson_saveAsJson {codec : JsonCodec} {s : ManifestSummary} (h : Reachable s)
    (hjson : codec.RoundTrips (.object s.root)) {openError : Option Str} {hasError : Bool}
    {text : Str} (hsave : s.saveAsJson codec openError hasError = .ok text)
    (before : ManifestSummary) : before.loadFromJson codec (.ok text) = (s, .ok ()) := by
  have htext : codec.write (.object s.root) = text := by
    cases openError with
    | some message => cases hsave
    | none =>
      cases hasError with
      | true => cases hsave
      | false => exact Except.ok.inj hsave
  have hparse : codec.parse text = .ok (.object s.root) := htext ▸ hjson h.inv.root
  simp only [loadFromJson, hparse, Json.getAsObject, ofMembers_root h.inv.key]

theorem eq_of_loadFromJson_error {codec : JsonCodec} {before after : ManifestSummary}
    {file : Except Str Str} {message : Str}
    (h : before.loadFromJson codec file = (after, .error message)) : after = before := by
  simp only [loadFromJson] at h
  split at h
  · exact (Prod.mk.inj h).1.symm
  · split at h
    · exact (Prod.mk.inj h).1.symm
    · split at h
      · exact (Prod.mk.inj h).1.symm
      · cases (Prod.mk.inj h).2

/-- A summary with one function. -/
def oneFunction : ManifestSummary :=
  empty.addFunction .guestToHost "sin".toList "math.h:1:1".toList

/-- The file of that summary, as it is written. -/
def oneFunctionText : Str :=
  ("\x7b\n    \"callbacks\": [],\n    \"fileName\": \"\",\n    \"functions\": \x7b\n" ++
    "        \"GuestToHost\": [\n            \x7b\n" ++
    "                \"location\": \"math.h:1:1\",\n                \"name\": \"sin\"\n" ++
    "            \x7d\n        ],\n        \"HostToGuest\": []\n    \x7d,\n" ++
    "    \"missingFunctions\": \x7b\n        \"GuestToHost\": [],\n" ++
    "        \"HostToGuest\": []\n    \x7d\n\x7d").toList

/-- A codec that knows this file. -/
def oneFunctionCodec : JsonCodec where
  write _ := oneFunctionText
  parse text :=
    if text = oneFunctionText then .ok (.object oneFunction.root)
    else .error "Expected a value".toList

theorem oneFunctionCodec_roundTrips :
    oneFunctionCodec.RoundTrips (.object oneFunction.root) := by
  intro _
  rw [oneFunctionCodec]
  simp only [if_true]

end ManifestSummary

end Lorelei.TLCApi
