import Lorelei.DLCall.EntrySources
import Lorelei.HostRT.Discovered
import Lorelei.HostRT.NextLibrary
import Lorelei.Support.ExpandedTwice

/-!
# The library of a host thunk

A host thunk opens the library that the database names for it, else the one that is baked
into it, else the one of its own name. The text is expanded on the way, also when it comes
from the database, where it has been expanded when its document was loaded.
-/

namespace Lorelei.HostRT

open Support DLCall

variable {Dir : Type} {inst : Installation Dir} {s : HostServer} {requests : List Request}

/-! ## The thunk -/

/-- `resolveNextLibrary`. -/
def resolveNextLibrary (next ownPath : Str) : Str :=
  if '/' ∉ next then next
  else if next.head? = some '/' then next
  else (beforeLast (fun s => s.head? = some '/') ownPath).getD ".".toList ++ "/".toList ++ next

/-- What a thunk carries of its own: whether the library is linked, and a path that may be
baked in. -/
structure StaticThunkContext where
  autoLink : Bool
  nextLibraryPath : Option Str

namespace HostThunkContext

/-- The text that is chosen. A null string is as good as an empty one. -/
def next (context : StaticThunkContext) (config : ThunkDatabase) (modulePath : Str) : Str :=
  let named := ((config.findForward (normalizeThunkName modulePath)).map
    ForwardThunk.hostLibrary).getD []
  let baked := cString (context.nextLibraryPath.getD [])
  if named ≠ [] then named
  else if baked ≠ [] then baked
  else nextLibraryByName modulePath true

/-- The path of the library, which is then resolved. -/
def hostLibrary (inst : Installation Dir) (s : HostServer) (context : StaticThunkContext)
    (modulePath : Str) : Str :=
  varexp (fun name => (inst.vars name).getD []) (next context s.thunkDatabase modulePath)

/-- `HostThunkContext::initialize`: what is opened, unless the library is linked. -/
def initializeContext (inst : Installation Dir) (s : HostServer) (context : StaticThunkContext)
    (modulePath : Str) : Option Str :=
  if context.autoLink then none
  else some (cString (resolveNextLibrary (hostLibrary inst s context modulePath) modulePath))

end HostThunkContext

/-! ## Where the database has it from -/

/-- A document has been loaded with these variables. -/
def Loaded (inst : Installation Dir) (s : HostServer) (doc : Json.Object) (vars : Vars) : Prop :=
  inst.override = some (some (.object doc)) ∧ vars = inst.vars ∨
    ∃ v ∈ s.visits, HasDocument inst v.prefixPath doc ∧ vars = (packOf inst v).packVars

/-- An entry is what an element of `forwardThunks` of a loaded document says. -/
def ComesFrom (inst : Installation Dir) (s : HostServer) (entry : ForwardThunk) (vars : Vars)
    (element : Json) : Prop :=
  (∃ doc, Loaded inst s doc vars ∧ element ∈ Json.arrayItems doc "forwardThunks") ∧
    ∃ item, forwardItem vars element = some item ∧ entry = item.truncate

/-- The template of the library, if an element has one. -/
def libraryTemplate : Json → Option Str
  | .object obj => Json.jsonString obj "hostLibrary"
  | _ => none

/-- Every entry comes from somewhere. -/
structure HostServer.Sourced (inst : Installation Dir) (s : HostServer) : Prop where
  valid : s.thunkDatabase.Valid
  comesFrom : ∀ entry ∈ s.thunkDatabase.forwardEntries, ∃ vars element,
    ComesFrom inst s entry vars element

theorem Loaded.visit {doc : Json.Object} {vars : Vars} (h : Loaded inst s doc vars) (v : Visit) :
    Loaded inst (s.visit inst v) doc vars :=
  h.imp id fun ⟨u, hu, hrest⟩ => ⟨u, List.mem_append_left _ hu, hrest⟩

theorem ComesFrom.visit {entry : ForwardThunk} {vars : Vars} {element : Json}
    (h : ComesFrom inst s entry vars element) (v : Visit) :
    ComesFrom inst (s.visit inst v) entry vars element :=
  ⟨h.1.imp fun _ hdoc => ⟨hdoc.1.visit v, hdoc.2⟩, h.2⟩

/-- An element of a document that has been loaded is where its entry comes from. -/
theorem comesFrom_of_mem {json : Option Json} {vars : Vars} {item : ForwardThunk}
    (hmem : item ∈ forwardElements json vars)
    (hload : ∀ doc, json = some (.object doc) → Loaded inst s doc vars) :
    ∃ element, ComesFrom inst s item.truncate vars element := by
  match json, hmem with
  | some (.object doc), hmem =>
      obtain ⟨element, helement, hitem⟩ := List.mem_filterMap.mp hmem
      exact ⟨element, ⟨doc, hload doc rfl, helement⟩, item, hitem, rfl⟩

theorem sourced_configure (inst : Installation Dir) :
    (configureThunkDiscovery inst).Sourced inst where
  valid := (configure_valid inst).1
  comesFrom entry hentry := by
    rw [configureThunkDiscovery] at hentry
    cases hjson : inst.override with
    | none =>
        rw [hjson] at hentry
        exact absurd hentry List.not_mem_nil
    | some json =>
        rw [hjson] at hentry
        obtain ⟨item, hitem, rfl⟩ := ThunkDatabase.mem_load .empty hentry
        have hload : ∀ doc, json = some (.object doc) →
            Loaded inst (configureThunkDiscovery inst) doc inst.vars :=
          fun doc hdoc => .inl ⟨hjson.trans (congrArg some hdoc), rfl⟩
        exact ⟨_, comesFrom_of_mem hitem hload⟩

theorem HostServer.Sourced.visit (h : s.Sourced inst) (v : Visit) :
    (s.visit inst v).Sourced inst := by
  have hold : ∀ entry ∈ s.thunkDatabase.forwardEntries, ∃ vars element,
      ComesFrom inst (s.visit inst v) entry vars element := by
    intro entry hentry
    obtain ⟨vars, element, helement⟩ := h.comesFrom entry hentry
    exact ⟨vars, element, helement.visit v⟩
  have hdb : (s.visit inst v).thunkDatabase =
      if (inst.packJson (inst.directory v.prefixPath)).isSome then
        (s.thunkDatabase.loadPack (packOf inst v)).2
      else s.thunkDatabase := rfl
  split at hdb
  next hsome =>
    refine ⟨hdb ▸ ThunkDatabase.loadPack_valid h.valid _, fun entry hentry => ?_⟩
    rw [hdb] at hentry
    rcases ThunkDatabase.mem_loadPack h.valid hentry with hentry | ⟨item, hitem, rfl⟩
    · exact hold entry hentry
    · refine ⟨_, comesFrom_of_mem hitem fun doc hdoc => .inr ⟨v, ?_, ?_, rfl⟩⟩
      · exact List.mem_append_right _ (List.mem_singleton_self v)
      · obtain ⟨json, hjson⟩ := Option.isSome_iff_exists.mp hsome
        have hpack : (inst.packJson (inst.directory v.prefixPath)).getD none =
            some (.object doc) := hdoc
        rw [hjson] at hpack
        rw [HasDocument, hjson, ← hpack]
        rfl
  next =>
    refine ⟨hdb ▸ h.valid, fun entry hentry => ?_⟩
    rw [hdb] at hentry
    exact hold entry hentry

theorem sourced_run (inst : Installation Dir) (requests : List Request) :
    ((configureThunkDiscovery inst).run inst requests).Sourced inst := by
  induction requests using List.reverseRecOn with
  | nil => exact sourced_configure inst
  | append_singleton requests r ih =>
      rw [run_concat]
      rcases getThunkInfo_cases inst ((configureThunkDiscovery inst).run inst requests) r with
        hsame | ⟨prefixPath, -, -, -, -, hvisit⟩
      · rw [hsame]
        exact ih
      · rw [hvisit]
        exact ih.visit _

/-- The entry of an element has the template expanded. -/
theorem hostLibrary_of_template {vars : Vars} {element : Json} {item : ForwardThunk}
    {template : Str} (hitem : forwardItem vars element = some item)
    (htemplate : libraryTemplate element = some template) :
    item.hostLibrary = resolvePath vars template := by
  cases element with
  | object obj =>
      have hstring : Json.jsonString obj "hostLibrary" = some template := htemplate
      have hfind : Json.find obj "hostLibrary" ≠ none := by
        intro hnone
        rw [Json.jsonString, hnone] at hstring
        cases hstring
      rw [forwardItem] at hitem
      split at hitem
      · cases hitem
      · obtain ⟨guestThunk, -, hrest⟩ := Option.bind_eq_some_iff.mp hitem
        obtain ⟨hostThunk, -, hrest⟩ := Option.bind_eq_some_iff.mp hrest
        obtain ⟨library, hlibrary, heq⟩ := Option.bind_eq_some_iff.mp hrest
        obtain rfl := Option.some.inj heq
        rw [fieldOr] at hlibrary
        split at hlibrary
        next hnone => exact absurd hnone hfind
        next =>
          rw [hstring] at hlibrary
          exact (Option.some.inj hlibrary).symm
  | _ => cases htemplate

/-! ## The second expansion -/

/-- The library that the database names is the one that is resolved. -/
def OpensOnce (inst : Installation Dir) (s : HostServer) (context : StaticThunkContext)
    (modulePath single : Str) : Prop :=
  single ≠ [] → HostThunkContext.hostLibrary inst s context modulePath = single

/-- The library that a thunk finds in the database is expanded again. -/
theorem opensOnce_iff_varexp {context : StaticThunkContext} {modulePath : Str}
    {entry : ForwardThunk}
    (hfound : s.thunkDatabase.findForward (normalizeThunkName modulePath) = some entry) :
    OpensOnce inst s context modulePath entry.hostLibrary ↔
      varexp (fun name => (inst.vars name).getD []) entry.hostLibrary = entry.hostLibrary := by
  by_cases hempty : entry.hostLibrary = []
  · rw [hempty]
    exact iff_of_true (fun hne => absurd rfl hne)
      ((varexp_eq_self_iff _ _).mpr (.inl List.isChain_nil))
  · have hnext : HostThunkContext.next context s.thunkDatabase modulePath =
        entry.hostLibrary := by
      rw [HostThunkContext.next, hfound]
      exact if_pos hempty
    rw [OpensOnce, HostThunkContext.hostLibrary, hnext]
    exact ⟨fun h => h hempty, fun h _ => h⟩

/-- What is opened is then found from the one expansion of the template. -/
theorem initializeContext_of_opensOnce {context : StaticThunkContext} {modulePath single : Str}
    (h : OpensOnce inst s context modulePath single) (hne : single ≠ [])
    (hlink : context.autoLink = false) :
    HostThunkContext.initializeContext inst s context modulePath =
      some (cString (resolveNextLibrary single modulePath)) := by
  rw [HostThunkContext.initializeContext, hlink, h hne]
  rfl

/-- The element of a document that names this library for `foo`. -/
def fooElement (template : Str) : Json :=
  .object [("name".toList, .string "foo".toList), ("guestThunk".toList, .string "foo.so".toList),
    ("hostThunk".toList, .string "foo_HTL.so".toList), ("hostLibrary".toList, .string template)]

def fooDocument (template : Str) : Json.Object :=
  [("forwardThunks".toList, .array [fooElement template])]

/-- The document overrides the packs, on a host with one variable. -/
def fooOverride (template : Str) : Installation Unit where
  vars name := if name = "ARCH".toList then some "x86_64".toList else none
  override := some (some (.object (fooDocument template)))
  hostArch := "x86_64".toList
  autoDiscover := true
  directory _ := ()
  packJson _ := none

/-- What it says about `foo`. -/
def fooItem (template : Str) : ForwardThunk where
  name := "foo".toList
  aliases := []
  guestThunk := resolvePath (fooOverride template).vars "foo.so".toList
  hostThunk := resolvePath (fooOverride template).vars "foo_HTL.so".toList
  hostLibrary := resolvePath (fooOverride template).vars template

section Foo

variable {template : Str} (h : template ≠ [])

include h

theorem libraryTemplate_foo : libraryTemplate (fooElement template) = some template := if_neg h

theorem forwardItem_foo :
    forwardItem (fooOverride template).vars (fooElement template) = some (fooItem template) := by
  show ((libraryTemplate (fooElement template)).map (resolvePath (fooOverride template).vars)).bind
    (fun library => some { fooItem template with hostLibrary := library }) = _
  rw [libraryTemplate_foo h]
  rfl

theorem comesFrom_foo :
    ComesFrom (fooOverride template) (configureThunkDiscovery (fooOverride template))
      (fooItem template).truncate (fooOverride template).vars (fooElement template) :=
  ⟨⟨fooDocument template, .inl ⟨rfl, rfl⟩, List.mem_singleton_self _⟩,
    fooItem template, forwardItem_foo h, rfl⟩

theorem findForward_foo : (configureThunkDiscovery (fooOverride template)).thunkDatabase.findForward
    "foo".toList = some (fooItem template).truncate := by
  have helements : forwardElements (some (.object (fooDocument template)))
      (fooOverride template).vars = [fooItem template] := by
    show List.filterMap _ [fooElement template] = _
    rw [List.filterMap_cons_some (forwardItem_foo h), List.filterMap_nil]
  have hentries := (ThunkDatabase.load_entries .empty (some (.object (fooDocument template)))
    (fooOverride template).vars).1
  rw [helements] at hentries
  rw [(configure_valid (fooOverride template)).2.findForward_eq]
  show LastNamed.find _ (ThunkDatabase.load .empty (some (.object (fooDocument template)))
    (fooOverride template).vars).2.forwardEntries _ = _
  rw [hentries]
  rfl

end Foo

/-- A path with a reference that is not meant as one. -/
def escaped : Str := "/$${ARCH}.so".toList

theorem escaped_ne : escaped ≠ [] := List.cons_ne_nil _ _

theorem resolvePath_escaped (vars : Vars) :
    cString (resolvePath vars escaped) = "/${ARCH}.so".toList := by
  have hinert : pieces "{ARCH}.so".toList = some ("{ARCH}.so".toList.map .char) :=
    pieces_of_inert (by decide)
  have hpieces : pieces escaped =
      some (.char '/' :: .dollar :: "{ARCH}.so".toList.map .char) := by
    show pieces ('/' :: '$' :: '$' :: "{ARCH}.so".toList) = _
    rw [pieces_char (by decide) (by decide), pieces, hinert]
    rfl
  have hno : ∀ name nested, .ref name nested ∉
      Piece.char '/' :: .dollar :: "{ARCH}.so".toList.map .char := by
    simp
  rw [resolvePath, varexp_eq_of_pieces hpieces, flatMap_raw_of_noRef hpieces hno]
  rfl

end Lorelei.HostRT
