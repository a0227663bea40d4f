import Lorelei.Lib.FirstOwner
import Lorelei.Support.StringExtras

/-!
# The thunk database

`ThunkDatabase`: entries read from JSON documents, with their strings in an arena, and
two indexes over the entries.  The address of an entry, of a string or of a list is its
position in a deque, which never moves its elements.

A load is given what the parser returned.  A JSON object is the map that the parser makes
of it.
-/

namespace Lorelei.DLCall

open Support FirstOwner

inductive Json where
  | null
  | bool (value : Bool)
  | number
  | string (value : Str)
  | array (items : List Json)
  | object (fields : List (Str × Json))

namespace Json

abbrev Object := List (Str × Json)

/-- `obj.find(key)`. -/
def find (obj : Object) (key : String) : Option Json :=
  (obj.find? fun f => f.1 = key.toList).map Prod.snd

/-- A string field that is not empty. -/
def jsonString (obj : Object) (key : String) : Option Str :=
  match find obj key with
  | some (.string value) => if value = [] then none else some value
  | _ => none

/-- The strings of an array field that are not empty. -/
def jsonStringArray (obj : Object) (key : String) : List Str :=
  match find obj key with
  | some (.array items) => items.filterMap fun
      | .string value => if value = [] then none else some value
      | _ => none
  | _ => []

/-- The elements of an array field. -/
def arrayItems (obj : Object) (key : String) : List Json :=
  match find obj key with
  | some (.array items) => items
  | _ => []

end Json

/-! ## What a document says -/

abbrev Vars := Str → Option Str

/-- An element of `forwardThunks`, resolved. -/
structure ForwardThunk where
  name : Str
  aliases : List Str
  guestThunk : Str
  hostThunk : Str
  hostLibrary : Str
deriving DecidableEq, Repr

/-- An element of `reversedThunks`. -/
structure ReversedThunk where
  name : Str
  aliases : List Str
  fileName : Str
  thunks : List Str
deriving DecidableEq, Repr

def str (s : String) : Str := s.toList

/-- `resolvePath`. -/
def resolvePath (vars : Vars) (p : Str) : Str := varexp (fun name => (vars name).getD []) p

/-- A field that falls back to a default when it is absent, but not when it is no
string. -/
def fieldOr (obj : Json.Object) (key : String) (vars : Vars) (default : Option Str) : Option Str :=
  match Json.find obj key with
  | none => default
  | some _ => (Json.jsonString obj key).map (resolvePath vars)

/-- What the loop over `forwardThunks` makes of an element, if it does not skip it. -/
def forwardItem (vars : Vars) : Json → Option ForwardThunk
  | .string name =>
      let gtl := (vars (str "GTL_DIR")).getD []
      let htl := (vars (str "HTL_DIR")).getD []
      if name ≠ [] ∧ gtl ≠ [] ∧ htl ≠ [] then
        some
          { name := name
            aliases := []
            guestThunk := gtl ++ str "/" ++ name ++ str ".so"
            hostThunk := htl ++ str "/" ++ name ++ str "_HTL.so"
            hostLibrary := name ++ str ".so" }
      else none
  | .object obj =>
      let gtl := (vars (str "GTL_DIR")).getD []
      let htl := (vars (str "HTL_DIR")).getD []
      match Json.jsonString obj "name" with
      | none => none
      | some name => do
          let guestThunk ← fieldOr obj "guestThunk" vars
            (if gtl = [] then none else some (gtl ++ str "/" ++ name ++ str ".so"))
          let hostThunk ← fieldOr obj "hostThunk" vars
            (if htl = [] then none else some (htl ++ str "/" ++ name ++ str "_HTL.so"))
          let hostLibrary ← fieldOr obj "hostLibrary" vars (some (name ++ str ".so"))
          return ⟨name, Json.jsonStringArray obj "alias", guestThunk, hostThunk, hostLibrary⟩
  | _ => none

/-- What the loop over `reversedThunks` makes of an element, if it does not skip it. -/
def reversedItem : Json → Option ReversedThunk
  | .object obj => do
      let name ← Json.jsonString obj "name"
      let fileName ← Json.jsonString obj "fileName"
      return ⟨name, Json.jsonStringArray obj "alias", fileName, Json.jsonStringArray obj "thunks"⟩
  | _ => none

/-! ## The database -/

/-- The addresses of strings and lists. -/
structure CForwardThunkInfo where
  name : Nat
  aliases : Nat
  aliasCount : Nat
  guestThunk : Nat
  hostThunk : Nat
  hostLibrary : Nat
deriving DecidableEq, Repr

structure CReversedThunkInfo where
  name : Nat
  aliases : Nat
  aliasCount : Nat
  fileName : Nat
  thunks : Nat
  thunksCount : Nat
deriving DecidableEq, Repr

structure ThunkDatabase where
  stringArena : List Str
  listArena : List (List Nat)
  forwardThunks : List CForwardThunkInfo
  reversedThunks : List CReversedThunkInfo
  forwardThunkMap : Index Str
  reversedThunkMap : Index Str
  forwardIndex : Index Str

namespace ThunkDatabase

def empty : ThunkDatabase where
  stringArena := []
  listArena := []
  forwardThunks := []
  reversedThunks := []
  forwardThunkMap _ := none
  reversedThunkMap _ := none
  forwardIndex _ := none

/-- The C string at an address. -/
def string (db : ThunkDatabase) (p : Nat) : Str := cString (db.stringArena.getD p [])

/-- The strings of a list of this length at an address. -/
def strings (db : ThunkDatabase) (p count : Nat) : List Str :=
  ((db.listArena.getD p []).take count).map db.string

def intern (db : ThunkDatabase) (s : Str) : Nat × ThunkDatabase :=
  (db.stringArena.length, { db with stringArena := db.stringArena ++ [s] })

/-- The addresses of these strings. -/
def internStrings (db : ThunkDatabase) : List Str → List Nat × ThunkDatabase
  | [] => ([], db)
  | s :: strs =>
      let (p, db) := db.intern s
      let (ps, db) := db.internStrings strs
      (p :: ps, db)

/-- A list with its length. -/
def internList (db : ThunkDatabase) (strs : List Str) : Nat × Nat × ThunkDatabase :=
  let (ps, db) := db.internStrings strs
  (db.listArena.length, ps.length, { db with listArena := db.listArena ++ [ps] })

/-- The interning half of `upsertForward`. -/
def internForward (db : ThunkDatabase) (item : ForwardThunk) : CForwardThunkInfo × ThunkDatabase :=
  let (name, db) := db.intern item.name
  let (aliases, aliasCount, db) := db.internList item.aliases
  let (guestThunk, db) := db.intern item.guestThunk
  let (hostThunk, db) := db.intern item.hostThunk
  let (hostLibrary, db) := db.intern item.hostLibrary
  (⟨name, aliases, aliasCount, guestThunk, hostThunk, hostLibrary⟩, db)

def upsertForward (db : ThunkDatabase) (overwrite : Bool) (item : ForwardThunk) : ThunkDatabase :=
  match db.forwardIndex item.name with
  | some i =>
      if overwrite then
        let (info, db) := db.internForward item
        { db with forwardThunks := db.forwardThunks.set i info }
      else db
  | none =>
      let (info, db) := db.internForward item
      { db with
        forwardIndex := emplace db.forwardIndex item.name db.forwardThunks.length
        forwardThunks := db.forwardThunks ++ [info] }

/-- The interning half of the loop over `reversedThunks`. -/
def internReversed (db : ThunkDatabase) (item : ReversedThunk) :
    CReversedThunkInfo × ThunkDatabase :=
  let (name, db) := db.intern item.name
  let (aliases, aliasCount, db) := db.internList item.aliases
  let (fileName, db) := db.intern item.fileName
  let (thunks, thunksCount, db) := db.internList item.thunks
  (⟨name, aliases, aliasCount, fileName, thunks, thunksCount⟩, db)

/-- The body of that loop, for an element that is well formed. -/
def addReversed (db : ThunkDatabase) (overwrite : Bool) (item : ReversedThunk) : ThunkDatabase :=
  if !overwrite && (db.reversedThunkMap item.name).isSome then db
  else
    let (info, db) := db.internReversed item
    { db with reversedThunks := db.reversedThunks ++ [info] }

/-- `none` is a file that cannot be opened or parsed. -/
def loadJsonDatabase (db : ThunkDatabase) (json : Option Json) (vars : Vars) (overwrite : Bool) :
    Bool × ThunkDatabase :=
  match json with
  | some (.object doc) =>
      let forward := (Json.arrayItems doc "forwardThunks").filterMap (forwardItem vars)
      let db := forward.foldl (fun db => db.upsertForward overwrite) db
      let reversed := (Json.arrayItems doc "reversedThunks").filterMap reversedItem
      let db := reversed.foldl (fun db => db.addReversed overwrite) db
      (true, db)
  | _ => (false, db)

/-- The names under which `rebuildIndexes` files an entry. -/
def forwardNames (db : ThunkDatabase) (info : CForwardThunkInfo) : List Str :=
  db.string info.name :: db.strings info.aliases info.aliasCount

def reversedNames (db : ThunkDatabase) (info : CReversedThunkInfo) : List Str :=
  db.string info.name :: db.strings info.aliases info.aliasCount

def rebuildIndexes (db : ThunkDatabase) : ThunkDatabase :=
  { db with
    forwardThunkMap := indexAll db.forwardNames db.forwardThunks
    reversedThunkMap := indexAll db.reversedNames db.reversedThunks }

/-- Everything there was is discarded. -/
def load (_db : ThunkDatabase) (json : Option Json) (vars : Vars) : Bool × ThunkDatabase :=
  let (jsonOk, db) := empty.loadJsonDatabase json vars true
  (jsonOk, db.rebuildIndexes)

/-- What `loadPack` is given: a document, the directories of the pack and variables. -/
structure Pack where
  json : Option Json
  guestThunkDir : Str
  hostThunkDir : Str
  vars : Vars

/-- `packVars`. -/
def Pack.packVars (pack : Pack) : Vars :=
  Function.update (Function.update pack.vars (str "GTL_DIR") (some pack.guestThunkDir))
    (str "HTL_DIR") (some pack.hostThunkDir)

def loadPack (db : ThunkDatabase) (pack : Pack) : Bool × ThunkDatabase :=
  let (jsonOk, db) := db.loadJsonDatabase pack.json pack.packVars false
  (jsonOk, db.rebuildIndexes)

/-- The address of the entry that has this name. -/
def forwardThunk (db : ThunkDatabase) (name : Str) : Option Nat := db.forwardThunkMap name

def reversedThunk (db : ThunkDatabase) (name : Str) : Option Nat := db.reversedThunkMap name

/-- What an entry says, followed through its pointers. -/
def readForward (db : ThunkDatabase) (info : CForwardThunkInfo) : ForwardThunk where
  name := db.string info.name
  aliases := db.strings info.aliases info.aliasCount
  guestThunk := db.string info.guestThunk
  hostThunk := db.string info.hostThunk
  hostLibrary := db.string info.hostLibrary

def readReversed (db : ThunkDatabase) (info : CReversedThunkInfo) : ReversedThunk where
  name := db.string info.name
  aliases := db.strings info.aliases info.aliasCount
  fileName := db.string info.fileName
  thunks := db.strings info.thunks info.thunksCount

end ThunkDatabase

end Lorelei.DLCall
