import Lorelei.Lib.SortedMap
import Lorelei.TLC.Declarations

/-!
# The callbacks of an argument list

The tree that the callback substituter builds over the arguments of a proc: its direct
callbacks, the aggregates that hold callbacks, and the out parameters that the callee
fills with a callback. A shape that cannot be marshalled makes the tree unsupported.
-/

namespace Lorelei.TLC

open Support

/-- How a node is reached from its parent. -/
inductive Reach where
  | byValue | byPointer
deriving DecidableEq, Repr

inductive TreeStatus where
  | hasCallbacks | noCallbacks | unsupported
deriving DecidableEq, Repr

/-- `CallbackTree`. The maps are by member name; a callback stands with the function type
behind its pointer. -/
inductive CallbackTree where
  | node (status : TreeStatus) (reach : Reach) (callbacks : List (String × QualType))
      (children : List (String × CallbackTree)) (outCallbacks : List (String × QualType))

namespace CallbackTree

def status : CallbackTree → TreeStatus
  | .node status _ _ _ _ => status

def unsupported : CallbackTree := .node .unsupported .byValue [] [] []

def noCallbacks : CallbackTree := .node .noCallbacks .byValue [] [] []

mutual

/-- The function types of all callbacks in a tree. -/
def callees : CallbackTree → List QualType
  | .node _ _ callbacks children outCallbacks =>
      callbacks.map Prod.snd ++ calleesOf children ++ outCallbacks.map Prod.snd

def calleesOf : List (String × CallbackTree) → List QualType
  | [] => []
  | (_, child) :: children => child.callees ++ calleesOf children

end

end CallbackTree

/-- `std::map::emplace`: what is there stays. -/
def emplace {α : Type*} (name : String) (value : α) (map : List (String × α)) :
    List (String × α) :=
  SortedMap.alter Prod.fst name (fun o => o.getD (name, value)) map

theorem mem_emplace {α : Type*} {name : String} {value : α} {map : List (String × α)}
    {x : String × α} (h : x ∈ emplace name value map) : x = (name, value) ∨ x ∈ map := by
  rcases SortedMap.mem_alter h with heq | ⟨b, hb, heq⟩ | hmem
  · exact .inl heq
  · exact .inr (heq ▸ hb)
  · exact .inr hmem

section Build

variable (getAsString : QualType → Str) (records : List RecordDecl)

/-- `containsFunctionPointer`. -/
def containsFunctionPointer (fuel : Nat) (type : QualType) : Option Bool :=
  (Worklist.walk (fun t => getTypeString getAsString t.stripped)
    (fun t => (fieldsOf records t.stripped).map Prod.snd) fuel [type] []).map fun types =>
      types.any fun t => t.stripped.isFunctionType

/-- The type behind a leading pointer, and whether there is one. -/
def peelPointer : QualType → Bool × QualType
  | .pointer _ pointee => (true, pointee)
  | type => (false, type)

/-- The part of a type that may hold no callback: what is behind a double pointer, the
elements of an array, and a union as a whole. -/
def closedPart : QualType → Option QualType
  | .pointer _ (.pointer _ pointee) => some pointee
  | type =>
      match (peelPointer type).2 with
      | .array element _ => some element
      | .tag quals .union name => some (.tag quals .union name)
      | _ => none

/-- A callback behind a double pointer, in an array or in a union. -/
def hasUnsupportedShape (fuel : Nat) (type : QualType) : Option Bool :=
  match closedPart type with
  | some part => containsFunctionPointer getAsString records fuel part
  | none => some false

/-- The loop over the fields of a record. `build` makes the tree of a field's type, given
the spellings on the path; the inner result is `none` if the record is unsupported. -/
def buildFields (build : QualType → List Str → Option CallbackTree) (fuel : Nat)
    (visited : List Str) : List (String × QualType) → List (String × QualType) →
      List (String × CallbackTree) →
        Option (Option (List (String × QualType) × List (String × CallbackTree)))
  | [], callbacks, children => some (some (callbacks, children))
  | (name, type) :: fields, callbacks, children =>
      match type.callee? with
      | some callee =>
          buildFields build fuel visited fields (emplace name callee callbacks) children
      | none =>
          let typeStr := getTypeString getAsString type
          if typeStr ∈ visited then
            -- a cycle that carries a callback is unsupported
            (containsFunctionPointer getAsString records fuel type).bind fun carries =>
              if carries then some none
              else buildFields build fuel visited fields callbacks children
          else
            (build type (typeStr :: visited)).bind fun child =>
              match child.status with
              | .unsupported => some none
              | .hasCallbacks =>
                  buildFields build fuel visited fields callbacks (emplace name child children)
              | .noCallbacks => buildFields build fuel visited fields callbacks children

/-- `CallbackTree::build`. -/
def build : Nat → QualType → List Str → Option CallbackTree
  | 0, _, _ => none
  | fuel + 1, type, visited =>
      (hasUnsupportedShape getAsString records fuel type).bind fun bad =>
        if bad then some .unsupported
        else if !(peelPointer type).2.isRecordType then some .noCallbacks
        else
          (buildFields getAsString records (build fuel) fuel visited
            (fieldsOf records (peelPointer type).2) [] []).map fun result =>
              match result with
              | none => .unsupported
              | some ([], []) => .noCallbacks
              | some (callbacks, children) =>
                  .node .hasCallbacks
                    (if (peelPointer type).1 then .byPointer else .byValue) callbacks children []

/-! ## Arguments -/

/-- `m_treeCache`: trees under the spellings of their types. -/
abbrev TreeCache := List (Str × CallbackTree)

/-- The tree of a type, from the cache or made new. -/
def cachedTree (fuel : Nat) (cache : TreeCache) (type : QualType) :
    Option (TreeCache × CallbackTree) :=
  let typeStr := getTypeString getAsString type
  match cache.lookup typeStr with
  | some tree => some (cache, tree)
  | none =>
      (build getAsString records fuel type []).map fun tree => ((typeStr, tree) :: cache, tree)

/-- The loop of `buildArgumentTree`, with the maps of the top node so far. -/
def argumentTree (fuel : Nat) : List (QualType × String) → TreeCache →
    List (String × QualType) → List (String × CallbackTree) → List (String × QualType) →
      Option (TreeCache × CallbackTree)
  | [], cache, callbacks, children, outCallbacks =>
      some (cache, match callbacks, children, outCallbacks with
        | [], [], [] => .noCallbacks
        | callbacks, children, outCallbacks =>
            .node .hasCallbacks .byValue callbacks children outCallbacks)
  | (type, name) :: args, cache, callbacks, children, outCallbacks =>
      match type.callee? with
      | some callee =>
          argumentTree fuel args cache (emplace name callee callbacks) children outCallbacks
      | none =>
          match type.getPointeeType.bind QualType.callee? with
          | some callee =>
              argumentTree fuel args cache callbacks children (emplace name callee outCallbacks)
          | none =>
              (cachedTree getAsString records fuel cache type).bind fun (cache, tree) =>
                match tree.status with
                | .unsupported => some (cache, .unsupported)
                | .hasCallbacks =>
                    argumentTree fuel args cache callbacks (emplace name tree children)
                      outCallbacks
                | .noCallbacks => argumentTree fuel args cache callbacks children outCallbacks

/-- `buildArgumentTree`, on the parameters of a view; they are named by position. -/
def buildArgumentTree (fuel : Nat) (cache : TreeCache) (argTypes : List QualType) :
    Option (TreeCache × CallbackTree) :=
  argumentTree getAsString records fuel
    (argTypes.mapIdx fun i type => (type, "arg" ++ toString (i + 1))) cache [] [] []

end Build

end Lorelei.TLC
