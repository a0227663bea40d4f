import Lorelei.GuestRT.HostProcAddress
import Lorelei.HostRT.HostLibrary

/-!
# Starting a thunk

A guest thunk opens the host thunk that the server names for it, else the one that is baked into
it, else the one of its own name. The host thunk then asks the database by the name of its own
file. With a file of the usual name that is the name of the entry, whatever alias the guest thunk
was found by, and an entry in front may have this name for an alias
(`findForward_hostThunk_iff`).
-/

namespace Lorelei.GuestRT

open Support DLCall HostRT

variable {Dir : Type} {inst : Installation Dir} {s : HostServer}

namespace GuestThunkContext

/-- The text that is chosen. The entry is read through its address. -/
def next (context : StaticThunkContext) (config : ThunkDatabase) (forward : Option Nat)
    (modulePath : Str) : Str :=
  let named := (forward.bind (config.forwardThunks[·]?)).elim [] fun info =>
    config.string info.hostThunk
  let baked := cString (context.nextLibraryPath.getD [])
  if named ≠ [] then named
  else if baked ≠ [] then baked
  else nextLibraryByName modulePath false

/-- `GuestThunkContext::initialize`: the path of the host thunk that is opened, and the server
afterwards. -/
def initializeContext (inst : Installation Dir) (s : HostServer) (context : StaticThunkContext)
    (modulePath : Str) : Str × HostServer :=
  let (forward, s) := s.getThunkInfo inst ⟨some modulePath, false⟩
  (cString (resolveNextLibrary (next context s.thunkDatabase forward modulePath) modulePath), s)

end GuestThunkContext

/-! ## The guest thunk -/

/-- The server answers with what its database says afterwards. -/
theorem fst_getThunkInfo_eq (inst : Installation Dir) (s : HostServer) (path : Str) :
    (s.getThunkInfo inst ⟨some path, false⟩).1 =
      (s.getThunkInfo inst ⟨some path, false⟩).2.thunkDatabase.forwardThunk (lookupName path) :=
  Process.fst_getThunkInfo inst (p := (⟨s, []⟩ : Process Empty)) path

theorem notMem_cString (text : Str) : '\x00' ∉ cString text := fun hmem => by
  simpa using List.mem_takeWhile_imp hmem

/-- The host thunk of an entry that a guest thunk finds is the one that is opened. -/
theorem fst_initializeContext {context : StaticThunkContext} {path : Str} {entry : ForwardThunk}
    (hfound : (GuestThunkContext.initializeContext inst s context path).2.thunkDatabase.findForward
      (lookupName path) = some entry) (hne : entry.hostThunk ≠ []) :
    (GuestThunkContext.initializeContext inst s context path).1 =
      cString (resolveNextLibrary entry.hostThunk path) := by
  have hinfo := fst_getThunkInfo_eq inst s path
  rw [GuestThunkContext.initializeContext] at hfound ⊢
  dsimp only at hfound ⊢
  rw [hinfo]
  generalize (s.getThunkInfo inst ⟨some path, false⟩).2 = s' at hfound ⊢
  obtain ⟨i, hi, hentry⟩ := Option.bind_eq_some_iff.mp hfound
  obtain ⟨info, hinfo, rfl⟩ := Option.map_eq_some_iff.mp hentry
  rw [GuestThunkContext.next, hi, Option.bind_some, hinfo]
  exact congrArg (fun next => cString (resolveNextLibrary next path)) (if_pos hne)

/-- A server that has the entry stays as it is. -/
theorem snd_initializeContext {context : StaticThunkContext} {path : Str} {entry : ForwardThunk}
    (hfound : s.thunkDatabase.findForward (lookupName path) = some entry) :
    (GuestThunkContext.initializeContext inst s context path).2 = s := by
  obtain ⟨i, hi, -⟩ := Option.bind_eq_some_iff.mp hfound
  have hname : s.thunkDatabase.forwardThunk (thunkNameOf (Request.text ⟨some path, false⟩)) =
      some i := hi
  show (s.getThunkInfo inst ⟨some path, false⟩).2 = s
  rw [HostServer.getThunkInfo]
  dsimp only
  rw [if_neg Bool.false_ne_true, HostServer.resolveForwardThunk, hname]

/-! ## The host thunk -/

theorem pathGetName_append {front rest : Str} (h : '/' ∈ rest) :
    pathGetName (front ++ rest) = pathGetName rest := by
  rw [pathGetName, pathGetName, List.rtakeWhile, List.rtakeWhile, List.reverse_append,
    List.takeWhile_append, if_neg]
  intro hlen
  have hall := List.takeWhile_eq_self_iff.mp
    ((List.takeWhile_prefix _).eq_of_length hlen) '/' (List.mem_reverse.mpr h)
  exact of_decide_eq_true hall rfl

theorem pathGetName_cons {base : Str} (h : '/' ∉ base) : pathGetName ('/' :: base) = base := by
  have hall : ∀ c ∈ base.reverse, decide (c ≠ '/') = true := fun c hc =>
    decide_eq_true fun heq => h (heq ▸ List.mem_reverse.mp hc)
  rw [pathGetName, List.rtakeWhile, List.reverse_cons, List.takeWhile_append_of_pos hall,
    List.takeWhile_cons_of_neg (by decide), List.append_nil, List.reverse_reverse]

theorem normalizeThunkName_pathGetName (path : Str) :
    normalizeThunkName (pathGetName path) = normalizeThunkName path := by
  rw [normalizeThunkName, normalizeThunkName, HostThunkContext.getLibraryName,
    HostThunkContext.getLibraryName, pathGetName_of_notMem (notMem_pathGetName path)]

/-- The path that a host thunk is opened by ends in its file name. -/
theorem pathGetName_resolveNextLibrary {next path : Str} (hpath : '\x00' ∉ path)
    (hnext : '\x00' ∉ next) :
    pathGetName (cString (resolveNextLibrary next path)) = pathGetName next := by
  rw [resolveNextLibrary]
  split
  case isTrue => rw [cString_eq_self_iff.mpr hnext]
  case isFalse hslash =>
    split
    · rw [cString_eq_self_iff.mpr hnext]
    · have hdir : '\x00' ∉ (beforeLast (fun s => s.head? = some '/') path).getD ".".toList := by
        rcases beforeLast_cases (fun s => s.head? = some '/') path with
          hnone | ⟨stem, rest, rfl, hne, hp, hlast⟩
        · rw [beforeLast_eq_none hnone]
          decide
        · rw [beforeLast_eq_some hp hne hlast]
          exact fun hmem => hpath (List.mem_append_left _ hmem)
      rw [cString_eq_self_iff.mpr, pathGetName_append (not_not.mp hslash)]
      rw [List.mem_append, List.mem_append]
      exact not_or.mpr ⟨not_or.mpr ⟨hdir, by decide⟩, hnext⟩

/-- An entry with the host thunk that it has by default. -/
def Conventional (entry : ForwardThunk) : Prop :=
  '/' ∉ entry.name ∧ ∃ dir, entry.hostThunk = dir ++ '/' :: (entry.name ++ "_HTL.so".toList)

theorem Conventional.normalizeThunkName {entry : ForwardThunk} (h : Conventional entry) :
    normalizeThunkName entry.hostThunk = entry.name := by
  obtain ⟨hname, dir, hthunk⟩ := h
  have hbase : '/' ∉ entry.name ++ "_HTL.so".toList := by
    rw [List.mem_append]
    exact not_or.mpr ⟨hname, by decide⟩
  rw [← normalizeThunkName_pathGetName, hthunk, pathGetName_append List.mem_cons_self,
    pathGetName_cons hbase, (names_of_hostThunk hname).1]

/-- An element does not name a host thunk. -/
def NamesNoHostThunk : Json → Prop
  | .object obj => Json.find obj "hostThunk" = none
  | _ => True

/-- The entry of such an element is conventional. -/
theorem conventional_of_forwardItem {vars : Vars} {element : Json} {item : ForwardThunk}
    (hitem : forwardItem vars element = some item) (hnone : NamesNoHostThunk element)
    (hslash : '/' ∉ item.name) (hname : '\x00' ∉ item.name)
    (hdir : '\x00' ∉ (vars (str "HTL_DIR")).getD []) : Conventional item.truncate := by
  have hthunk : item.hostThunk =
      (vars (str "HTL_DIR")).getD [] ++ '/' :: (item.name ++ "_HTL.so".toList) := by
    cases element with
    | string name =>
        rw [forwardItem] at hitem
        split at hitem
        · obtain rfl := Option.some.inj hitem
          simp [str]
        · cases hitem
    | object obj =>
        rw [forwardItem] at hitem
        split at hitem
        · cases hitem
        · obtain ⟨guestThunk, -, hrest⟩ := Option.bind_eq_some_iff.mp hitem
          obtain ⟨hostThunk, hhost, hrest⟩ := Option.bind_eq_some_iff.mp hrest
          obtain ⟨library, -, heq⟩ := Option.bind_eq_some_iff.mp hrest
          obtain rfl := Option.some.inj heq
          rw [fieldOr, hnone] at hhost
          dsimp only at hhost
          split at hhost
          · cases hhost
          · obtain rfl := Option.some.inj hhost
            simp [str]
    | _ => cases hitem
  have hnul : '\x00' ∉ item.hostThunk := by
    rw [hthunk, List.mem_append, List.mem_cons, List.mem_append]
    exact not_or.mpr ⟨hdir, not_or.mpr ⟨by decide, not_or.mpr ⟨hname, by decide⟩⟩⟩
  have htruncate : item.truncate.name = item.name := cString_eq_self_iff.mpr hname
  refine ⟨htruncate ▸ hslash, (vars (str "HTL_DIR")).getD [], ?_⟩
  rw [htruncate]
  exact (cString_eq_self_iff.mpr hnul).trans hthunk

/-! ## Both of them -/

theorem notMem_hostThunk {db : ThunkDatabase} {k : Str} {entry : ForwardThunk}
    (h : db.findForward k = some entry) : '\x00' ∉ entry.hostThunk := by
  obtain ⟨i, -, hentry⟩ := Option.bind_eq_some_iff.mp h
  obtain ⟨info, -, rfl⟩ := Option.map_eq_some_iff.mp hentry
  exact notMem_cString _

theorem normalizeThunkName_htlPath {context : StaticThunkContext} {path : Str}
    {entry : ForwardThunk} (hpath : '\x00' ∉ path)
    (hfound : (GuestThunkContext.initializeContext inst s context path).2.thunkDatabase.findForward
      (lookupName path) = some entry) (hne : entry.hostThunk ≠ []) :
    normalizeThunkName (GuestThunkContext.initializeContext inst s context path).1 =
      normalizeThunkName entry.hostThunk := by
  rw [fst_initializeContext hfound hne, ← normalizeThunkName_pathGetName,
    pathGetName_resolveNextLibrary hpath (notMem_hostThunk hfound),
    normalizeThunkName_pathGetName]

/-- A database that has grown finds an old entry by the names that found it before. -/
theorem Grows.findForward_iff {db db' : ThunkDatabase} (h : Grows db db') (hdb : Indexed db)
    {k : Str} {entry : ForwardThunk} (hmem : entry ∈ db.forwardEntries) :
    db'.findForward k = some entry ↔ db.findForward k = some entry := by
  refine ⟨fun hlater => ?_, h.findForward⟩
  have hk : k ∈ entry.names := by
    rw [h.indexed.firstKept.findForward_eq] at hlater
    exact (LastNamed.find_eq_some_iff.mp hlater).1
  -- the name belongs to this entry, so it led to one before, and still does
  obtain ⟨first, hfirst⟩ : ∃ first, db.findForward k = some first := by
    rw [hdb.firstKept.findForward_eq, ← Option.isSome_iff_exists, LastNamed.find,
      List.find?_isSome]
    exact ⟨entry, hmem, by simpa using hk⟩
  rw [h.findForward hfirst] at hlater
  rw [hfirst, hlater]

/-- A guest thunk has found an entry. At any later time the host thunk that it has opened finds
this entry exactly if the name of its file is one of the entry's names and not a name of an entry
in front. The name of a conventional file is that of the entry. -/
theorem findForward_hostThunk_iff (inst : Installation Dir) (before after : List Request)
    (context : StaticThunkContext) {path htlPath : Str} {s : HostServer} {entry : ForwardThunk}
    (hpath : '\x00' ∉ path)
    (hinit : GuestThunkContext.initializeContext inst
      ((configureThunkDiscovery inst).run inst before) context path = (htlPath, s))
    (hfound : s.thunkDatabase.findForward (lookupName path) = some entry)
    (hne : entry.hostThunk ≠ []) :
    let name := normalizeThunkName entry.hostThunk
    ((s.run inst after).thunkDatabase.findForward (normalizeThunkName htlPath) = some entry ↔
      name ∈ entry.names ∧
        ∀ other ∈ s.thunkDatabase.forwardEntries.takeWhile (· ≠ entry), name ∉ other.names) ∧
      (Conventional entry → name = entry.name) := by
  intro name
  refine ⟨?_, Conventional.normalizeThunkName⟩
  have hserver : (GuestThunkContext.initializeContext inst
      ((configureThunkDiscovery inst).run inst before) context path).2 = s := by rw [hinit]
  have hname : normalizeThunkName htlPath = name := by
    have hopened := normalizeThunkName_htlPath hpath (hserver ▸ hfound) hne
    rw [hinit] at hopened
    exact hopened
  have hstart : Indexed (configureThunkDiscovery inst).thunkDatabase :=
    ⟨(configure_valid inst).1, (configure_valid inst).2⟩
  have hask : Indexed s.thunkDatabase := by
    rw [← hserver]
    exact (grows_server inst (grows_requests inst hstart before).indexed ⟨some path, false⟩).indexed
  have hlater := (grows_requests inst hask after).findForward_iff hask (k := name)
    (ThunkDatabase.mem_of_findForward hfound)
  rw [hask.firstKept.findForward_eq] at hfound hlater
  rw [hname, hlater]
  constructor
  · intro hfind
    have hmem := (LastNamed.find_eq_some_iff.mp hfind).1
    exact ⟨hmem, (LastNamed.find_eq_some_iff_takeWhile hfound hmem).mp hfind⟩
  · rintro ⟨hmem, hfront⟩
    exact (LastNamed.find_eq_some_iff_takeWhile hfound hmem).mpr hfront

/-- Two entries, of which the first has the name of the second for an alias. -/
def aliasDocument : Json.Object :=
  [("forwardThunks".toList, .array
    [.object [("name".toList, .string "a".toList), ("alias".toList, .array [.string "b".toList])],
      .object [("name".toList, .string "b".toList),
        ("alias".toList, .array [.string "c".toList])]])]

def aliasOverride : Installation Unit where
  vars name :=
    if name = "GTL_DIR".toList then some "/gtl".toList
    else if name = "HTL_DIR".toList then some "/htl".toList
    else none
  override := some (some (.object aliasDocument))
  hostArch := "x86_64".toList
  autoDiscover := true
  directory _ := ()
  packJson _ := none

/-- What they say. -/
def aliasItem (name alias_ : Char) : ForwardThunk where
  name := [name]
  aliases := [[alias_]]
  guestThunk := "/gtl/".toList ++ name :: ".so".toList
  hostThunk := "/htl/".toList ++ name :: "_HTL.so".toList
  hostLibrary := name :: ".so".toList

theorem forwardEntries_alias :
    (configureThunkDiscovery aliasOverride).thunkDatabase.forwardEntries =
      [aliasItem 'a' 'b', aliasItem 'b' 'c'] := by
  have helements : forwardElements (some (.object aliasDocument)) aliasOverride.vars =
      [aliasItem 'a' 'b', aliasItem 'b' 'c'] := by decide
  show (ThunkDatabase.load .empty (some (.object aliasDocument))
    aliasOverride.vars).2.forwardEntries = _
  rw [(ThunkDatabase.load_entries ..).1, helements]
  decide

theorem findForward_alias : (configureThunkDiscovery aliasOverride).thunkDatabase.findForward
    (lookupName "/gtl/c.so".toList) = some (aliasItem 'b' 'c') := by
  rw [(configure_valid aliasOverride).2.findForward_eq, forwardEntries_alias]
  decide

theorem initializeContext_alias : GuestThunkContext.initializeContext aliasOverride
    (configureThunkDiscovery aliasOverride) ⟨false, none⟩ "/gtl/c.so".toList =
      ("/htl/b_HTL.so".toList, configureThunkDiscovery aliasOverride) := by
  have hserver : (GuestThunkContext.initializeContext aliasOverride
      (configureThunkDiscovery aliasOverride) ⟨false, none⟩ "/gtl/c.so".toList).2 =
        configureThunkDiscovery aliasOverride := snd_initializeContext findForward_alias
  refine Prod.ext ?_ hserver
  rw [fst_initializeContext (hserver.symm ▸ findForward_alias) (by decide)]
  decide

/-- The guest thunk of the second entry does not get the library of that entry. -/
theorem findForward_hostThunk_iff_alias :
    ((configureThunkDiscovery aliasOverride).run aliasOverride
      [⟨some "/gtl/b.so".toList, false⟩]).thunkDatabase.findForward
        (normalizeThunkName "/htl/b_HTL.so".toList) ≠ some (aliasItem 'b' 'c') := by
  intro hlater
  have hfront := ((findForward_hostThunk_iff aliasOverride [] _ ⟨false, none⟩ (by decide)
    initializeContext_alias findForward_alias (by decide)).1.mp hlater).2
  rw [forwardEntries_alias] at hfront
  revert hfront
  decide

end Lorelei.GuestRT
