import Lorelei.HostRT.Discovery

/-!
# What discovery finds

A pack is loaded by the first guest thunk that lies in it and is looked up in vain, and
its reversed entries resolve from then on (`HostServer.Inv`).  But a lookup that hits
returns before it looks for a pack, so a pack whose thunks the override knows is never
loaded; and a directory that is reached by prefixes of different normal forms is visited
once for each.
-/

namespace Lorelei.HostRT

open Support DLCall FirstOwner

variable {Dir : Type} {inst : Installation Dir} {s : HostServer} {r : Request}
  {requests : List Request} {prefixPath : Str} {doc : Json.Object}

/-- `<prefix>/x86_64/lib/x86_64-LoreGTL/<name>`. -/
def StandardLayout (path prefixPath : Str) : Prop :=
  filename (gtlDir path) = "x86_64-LoreGTL".toList ∧
    filename (parentPath (gtlDir path)) = "lib".toList ∧
    filename (parentPath (parentPath (gtlDir path))) = "x86_64".toList ∧
    parentPath (parentPath (parentPath (gtlDir path))) = prefixPath ∧ prefixPath ≠ []

/-- The document of the pack in the directory that a prefix leads to can be read. -/
def HasDocument (inst : Installation Dir) (prefixPath : Str) (doc : Json.Object) : Prop :=
  inst.packJson (inst.directory prefixPath) = some (some (.object doc))

/-- The visits that loaded a pack. -/
def HostServer.loads (inst : Installation Dir) (s : HostServer) : List Visit :=
  s.visits.filter fun v => (inst.packJson (inst.directory v.prefixPath)).isSome

/-- The directories whose JSON has been loaded. -/
def HostServer.loadedDirs (inst : Installation Dir) (s : HostServer) : List Dir :=
  (s.loads inst).map fun v => inst.directory v.prefixPath

/-- The override and the packs that were loaded before the one in this directory. -/
def HostServer.databaseBefore [DecidableEq Dir] (inst : Installation Dir) (s : HostServer)
    (dir : Dir) : ThunkDatabase :=
  (configureThunkDiscovery inst).thunkDatabase.loadPacks
    (((s.loads inst).takeWhile fun v => inst.directory v.prefixPath ≠ dir).map (packOf inst))

/-- Every reversed entry of a pack in use resolves unless its key was taken before, and
no pack is loaded twice. -/
structure Discovered [DecidableEq Dir] (inst : Installation Dir) (requests : List Request) :
    Prop where
  resolves : ∀ pre r post prefixPath doc item, requests = pre ++ r :: post →
    r.isReverse = false → StandardLayout r.text prefixPath → HasDocument inst prefixPath doc →
    item ∈ reversedItems doc →
    (((configureThunkDiscovery inst).run inst requests).databaseBefore inst
      (inst.directory prefixPath)).reversedThunk (cString item.name) = none →
    ((configureThunkDiscovery inst).run inst requests).thunkDatabase.Resolves
      (cString item.name) item.truncate
  once : (((configureThunkDiscovery inst).run inst requests).loadedDirs inst).Nodup

/-- What is asked of a request: a guest thunk of a pack that has not been visited is not
in the database, a directory is reached by prefixes of one normal form, and different
directories by different ones, and a pack does not give a free key to two entries. -/
structure Meets (inst : Installation Dir) (s : HostServer) (r : Request) : Prop where
  misses : ∀ prefixPath doc, r.isReverse = false → StandardLayout r.text prefixPath →
    HasDocument inst prefixPath doc →
    (∀ v ∈ s.visits, inst.directory v.prefixPath ≠ inst.directory prefixPath) →
    s.thunkDatabase.forwardThunk (thunkNameOf r.text) = none
  oneForm : ∀ prefixPath, r.isReverse = false →
    s.thunkDatabase.forwardThunk (thunkNameOf r.text) = none →
    packPrefix r.text = some prefixPath →
    ∀ v ∈ s.visits, lexicallyNormal v.prefixPath = lexicallyNormal prefixPath ↔
      inst.directory v.prefixPath = inst.directory prefixPath
  unambiguous : ∀ prefixPath doc, r.isReverse = false →
    packPrefix r.text = some prefixPath → HasDocument inst prefixPath doc →
    (∀ v ∈ s.visits, inst.directory v.prefixPath ≠ inst.directory prefixPath) →
    s.thunkDatabase.Unambiguous (reversedItems doc)

def AllMeet (inst : Installation Dir) (requests : List Request) : Prop :=
  ∀ pre r post, requests = pre ++ r :: post →
    Meets inst ((configureThunkDiscovery inst).run inst pre) r

/-! ## One request -/

theorem run_concat (s : HostServer) (requests : List Request) (r : Request) :
    s.run inst (requests ++ [r]) = ((s.run inst requests).getThunkInfo inst r).2 := by
  rw [HostServer.run, List.foldl_concat]
  rfl

/-- A request changes nothing, or it visits a pack after a lookup that missed. -/
theorem getThunkInfo_cases (inst : Installation Dir) (s : HostServer) (r : Request) :
    (s.getThunkInfo inst r).2 = s ∨
      ∃ prefixPath, r.isReverse = false ∧
        s.thunkDatabase.forwardThunk (thunkNameOf r.text) = none ∧
        packPrefix r.text = some prefixPath ∧
        lexicallyNormal prefixPath ∉ s.loadedPackPrefixes ∧
        (s.getThunkInfo inst r).2 = s.visit inst ⟨prefixPath, gtlDir r.text⟩ := by
  rw [HostServer.getThunkInfo]
  cases hreverse : r.isReverse with
  | true => exact .inl rfl
  | false =>
      simp only [Bool.false_eq_true, if_false, HostServer.resolveForwardThunk]
      cases hname : s.thunkDatabase.forwardThunk (thunkNameOf r.text) with
      | some entry => exact .inl rfl
      | none =>
          simp only
          split
          · exact .inl rfl
          cases hpack : packPrefix r.text with
          | none => exact .inl rfl
          | some prefixPath =>
              simp only
              split
              · exact .inl rfl
              · rename_i hnew
                exact .inr ⟨prefixPath, trivial, trivial, rfl, hnew, rfl⟩

theorem packPrefix_of_standardLayout {path : Str} (h : StandardLayout path prefixPath) :
    packPrefix path = some prefixPath := by
  obtain ⟨hname, -, -, hpack, hne⟩ := h
  rw [packPrefix, if_neg (not_not_intro hname)]
  simp only [hpack]
  exact if_neg hne

theorem mem_loadedPackPrefixes {normal : Str} :
    normal ∈ s.loadedPackPrefixes ↔ ∃ v ∈ s.visits, lexicallyNormal v.prefixPath = normal :=
  List.mem_map

theorem visits_getThunkInfo (inst : Installation Dir) (s : HostServer) (r : Request) :
    s.visits <+: (s.getThunkInfo inst r).2.visits := by
  rcases getThunkInfo_cases inst s r with h | ⟨prefixPath, -, -, -, -, h⟩
  · rw [h]
  · rw [h]
    exact List.prefix_append _ _

theorem visits_run (inst : Installation Dir) (s : HostServer) (requests : List Request) :
    s.visits <+: (s.run inst requests).visits := by
  induction requests generalizing s with
  | nil => exact List.prefix_rfl
  | cons r requests ih => exact (visits_getThunkInfo inst s r).trans (ih _)

/-! ## The invariant -/

variable [DecidableEq Dir]

/-- The database is the override with the loaded packs under it, no pack is loaded twice,
and what a loaded pack says resolves unless its key was taken before. -/
structure HostServer.Inv (inst : Installation Dir) (s : HostServer) : Prop where
  database : s.thunkDatabase =
    (configureThunkDiscovery inst).thunkDatabase.loadPacks ((s.loads inst).map (packOf inst))
  once : (s.loadedDirs inst).Nodup
  resolves : ∀ v ∈ s.visits, ∀ doc, HasDocument inst v.prefixPath doc →
    ∀ item ∈ reversedItems doc,
      (s.databaseBefore inst (inst.directory v.prefixPath)).reversedThunk (cString item.name) =
        none → s.thunkDatabase.Resolves (cString item.name) item.truncate

omit [DecidableEq Dir] in
theorem configure_valid (inst : Installation Dir) :
    (configureThunkDiscovery inst).thunkDatabase.Valid ∧
      (configureThunkDiscovery inst).thunkDatabase.FirstKept := by
  rw [configureThunkDiscovery]
  cases inst.override with
  | none => exact ⟨ThunkDatabase.valid_empty, fun k => rfl, fun k => rfl⟩
  | some json =>
      exact ⟨ThunkDatabase.load_valid .empty json inst.vars,
        ThunkDatabase.firstKept_rebuildIndexes _⟩

theorem inv_configure (inst : Installation Dir) : (configureThunkDiscovery inst).Inv inst where
  database := rfl
  once := List.nodup_nil
  resolves v hv := by cases hv

theorem HostServer.Inv.valid (h : s.Inv inst) :
    s.thunkDatabase.Valid ∧ s.thunkDatabase.FirstKept := by
  obtain ⟨hvalid, hfirst⟩ := configure_valid inst
  rw [h.database]
  exact ThunkDatabase.loadPacks_valid hvalid hfirst _

omit [DecidableEq Dir] in
theorem loadPacks_concat (db : ThunkDatabase) (packs : List ThunkDatabase.Pack)
    (pack : ThunkDatabase.Pack) :
    db.loadPacks (packs ++ [pack]) = ((db.loadPacks packs).loadPack pack).2 := by
  rw [ThunkDatabase.loadPacks, List.foldl_concat]
  rfl

theorem takeWhile_append_of_mem {α : Type*} {p : α → Bool} {l m : List α} {a : α} (ha : a ∈ l)
    (hp : p a = false) : (l ++ m).takeWhile p = l.takeWhile p := by
  rw [List.takeWhile_append, if_neg]
  intro hlength
  have hall : l.takeWhile p = l := (List.takeWhile_prefix p).eq_of_length hlength
  rw [← hall] at ha
  rw [List.mem_takeWhile_imp ha] at hp
  cases hp

omit [DecidableEq Dir] in
theorem loads_visit (inst : Installation Dir) (s : HostServer) (v : Visit) :
    (s.visit inst v).loads inst = s.loads inst ++
      if (inst.packJson (inst.directory v.prefixPath)).isSome then [v] else [] := by
  rw [HostServer.loads, HostServer.visit, List.filter_append, List.filter_singleton,
    Bool.cond_eq_ite]
  rfl

/-- What was loaded before a pack that is loaded does not change. -/
theorem databaseBefore_visit {u v : Visit} (hu : u ∈ s.loads inst) :
    (s.visit inst v).databaseBefore inst (inst.directory u.prefixPath) =
      s.databaseBefore inst (inst.directory u.prefixPath) := by
  rw [HostServer.databaseBefore, HostServer.databaseBefore, loads_visit,
    takeWhile_append_of_mem hu (by simp)]

omit [DecidableEq Dir] in
theorem mem_loads_of_hasDocument {v : Visit} (hv : v ∈ s.visits)
    (hdoc : HasDocument inst v.prefixPath doc) : v ∈ s.loads inst := by
  refine List.mem_filter.mpr ⟨hv, ?_⟩
  rw [hdoc]
  rfl

/-- Everything loaded so far comes before a pack that is loaded now. -/
theorem databaseBefore_visit_self (h : s.Inv inst) {v : Visit}
    (hfresh : ∀ u ∈ s.visits, inst.directory u.prefixPath ≠ inst.directory v.prefixPath) :
    (s.visit inst v).databaseBefore inst (inst.directory v.prefixPath) = s.thunkDatabase := by
  have hall : ∀ u ∈ s.loads inst,
      decide (inst.directory u.prefixPath ≠ inst.directory v.prefixPath) = true := by
    intro u hu
    exact decide_eq_true (hfresh u (List.mem_of_mem_filter hu))
  rw [HostServer.databaseBefore, loads_visit, List.takeWhile_append_of_pos hall, h.database]
  split <;> simp

/-- Visiting a pack that has not been visited keeps the invariant. -/
theorem HostServer.Inv.visit (h : s.Inv inst) {v : Visit}
    (hfresh : ∀ u ∈ s.visits, inst.directory u.prefixPath ≠ inst.directory v.prefixPath)
    (hunambiguous : ∀ doc, HasDocument inst v.prefixPath doc →
      s.thunkDatabase.Unambiguous (reversedItems doc)) : (s.visit inst v).Inv inst := by
  obtain ⟨hvalid, hfirst⟩ := h.valid
  have hpreserved := ThunkDatabase.loadPack_preserved hvalid hfirst (packOf inst v)
  have hold : ∀ u ∈ s.visits, ∀ doc, HasDocument inst u.prefixPath doc →
      ∀ item ∈ reversedItems doc,
        ((s.visit inst v).databaseBefore inst (inst.directory u.prefixPath)).reversedThunk
          (cString item.name) = none →
        s.thunkDatabase.Resolves (cString item.name) item.truncate := by
    intro u hu doc hdoc item hitem hfree
    rw [databaseBefore_visit (mem_loads_of_hasDocument hu hdoc)] at hfree
    exact h.resolves u hu doc hdoc item hitem hfree
  cases hjson : inst.packJson (inst.directory v.prefixPath) with
  | none =>
      have hloads : (s.visit inst v).loads inst = s.loads inst := by
        rw [loads_visit, hjson]
        exact List.append_nil _
      have hdb : (s.visit inst v).thunkDatabase = s.thunkDatabase := by
        rw [HostServer.visit, hjson]
        rfl
      refine ⟨?_, ?_, ?_⟩
      · rw [hloads, hdb, h.database]
      · rw [HostServer.loadedDirs, hloads]
        exact h.once
      · intro u hu doc hdoc item hitem hfree
        rw [hdb]
        rcases List.mem_append.mp hu with hu | hu
        · exact hold u hu doc hdoc item hitem hfree
        · rw [List.mem_singleton.mp hu, HasDocument, hjson] at hdoc
          cases hdoc
  | some json =>
      have hloads : (s.visit inst v).loads inst = s.loads inst ++ [v] := by
        rw [loads_visit, hjson]
        rfl
      have hdb : (s.visit inst v).thunkDatabase =
          (s.thunkDatabase.loadPack (packOf inst v)).2 := by
        rw [HostServer.visit, hjson]
        rfl
      refine ⟨?_, ?_, ?_⟩
      · rw [hloads, hdb, List.map_append, List.map_singleton, loadPacks_concat, ← h.database]
      · rw [HostServer.loadedDirs, hloads, List.map_append]
        refine List.nodup_append.mpr ⟨h.once, by simp, ?_⟩
        rintro dir hdir _ hmem rfl
        obtain ⟨u, hu, rfl⟩ := List.mem_map.mp hdir
        exact hfresh u (List.mem_of_mem_filter hu) (List.mem_singleton.mp hmem)
      · intro u hu doc hdoc item hitem hfree
        rw [hdb]
        rcases List.mem_append.mp hu with hu | hu
        · exact (hold u hu doc hdoc item hitem hfree).preserved hpreserved
        · obtain rfl := List.mem_singleton.mp hu
          rw [databaseBefore_visit_self h hfresh] at hfree
          refine ThunkDatabase.loadPack_resolves hvalid hfirst ?_
            (hunambiguous doc hdoc) hitem hfree
          show (inst.packJson (inst.directory u.prefixPath)).getD none = _
          rw [hdoc]
          rfl

/-! ## Runs -/

omit [DecidableEq Dir] in
/-- A pack that is looked into for the first time is one whose directory is new. -/
theorem Meets.fresh (h : Meets inst s r) (hreverse : r.isReverse = false)
    (hname : s.thunkDatabase.forwardThunk (thunkNameOf r.text) = none)
    (hpack : packPrefix r.text = some prefixPath)
    (hnew : lexicallyNormal prefixPath ∉ s.loadedPackPrefixes) :
    ∀ u ∈ s.visits, inst.directory u.prefixPath ≠ inst.directory prefixPath := by
  intro u hu hdir
  apply hnew
  exact mem_loadedPackPrefixes.mpr
    ⟨u, hu, (h.oneForm prefixPath hreverse hname hpack u hu).mpr hdir⟩

theorem HostServer.Inv.getThunkInfo (h : s.Inv inst) (hmeets : Meets inst s r) :
    (s.getThunkInfo inst r).2.Inv inst := by
  rcases getThunkInfo_cases inst s r with hsame | ⟨prefixPath, hreverse, hname, hpack, hnew, heq⟩
  · rw [hsame]
    exact h
  · have hfresh := hmeets.fresh hreverse hname hpack hnew
    rw [heq]
    exact h.visit hfresh fun doc hdoc =>
      hmeets.unambiguous prefixPath doc hreverse hpack hdoc hfresh

/-- After a forward request from the standard layout the pack has been visited. -/
theorem Meets.visited (h : Meets inst s r) (hauto : inst.autoDiscover = true)
    (hreverse : r.isReverse = false) (hlayout : StandardLayout r.text prefixPath)
    (hdoc : HasDocument inst prefixPath doc) :
    ∃ v ∈ (s.getThunkInfo inst r).2.visits,
      inst.directory v.prefixPath = inst.directory prefixPath := by
  by_cases hvisited : ∀ v ∈ s.visits, inst.directory v.prefixPath ≠ inst.directory prefixPath
  · have hname := h.misses prefixPath doc hreverse hlayout hdoc hvisited
    have hpack := packPrefix_of_standardLayout hlayout
    have hpath : r.text ≠ [] := by
      rintro htext
      rw [htext] at hpack
      cases hpack
    have hnew : lexicallyNormal prefixPath ∉ s.loadedPackPrefixes := by
      rintro hmem
      obtain ⟨v, hv, hnormal⟩ := mem_loadedPackPrefixes.mp hmem
      exact hvisited v hv ((h.oneForm prefixPath hreverse hname hpack v hv).mp hnormal)
    refine ⟨⟨prefixPath, gtlDir r.text⟩, ?_, rfl⟩
    simp only [HostServer.getThunkInfo, hreverse, Bool.false_eq_true, if_false,
      HostServer.resolveForwardThunk, hname, hauto, hpack, hpath, hnew, HostServer.visit]
    simp
  · push Not at hvisited
    obtain ⟨v, hv, hdir⟩ := hvisited
    exact ⟨v, (visits_getThunkInfo inst s r).subset hv, hdir⟩

omit [DecidableEq Dir] in
theorem AllMeet.of_concat (h : AllMeet inst (requests ++ [r])) : AllMeet inst requests := by
  rintro pre r' post rfl
  exact h pre r' (post ++ [r]) (by simp)

theorem AllMeet.inv (h : AllMeet inst requests) :
    ((configureThunkDiscovery inst).run inst requests).Inv inst := by
  induction requests using List.reverseRecOn with
  | nil => exact inv_configure inst
  | append_singleton requests r ih =>
      rw [run_concat]
      exact (ih h.of_concat).getThunkInfo (h requests r [] rfl)

/-- In a run whose requests all meet the condition, every pack in use is found. -/
theorem discovered_of_allMeet (hauto : inst.autoDiscover = true) (h : AllMeet inst requests) :
    Discovered inst requests where
  once := h.inv.once
  resolves pre r post prefixPath doc item hsplit hreverse hlayout hdoc hitem hfree := by
    obtain ⟨v, hv, hdir⟩ := (h pre r post hsplit).visited hauto hreverse hlayout hdoc
    have hvisits : v ∈ ((configureThunkDiscovery inst).run inst requests).visits := by
      have hrun : (configureThunkDiscovery inst).run inst requests =
          (((configureThunkDiscovery inst).run inst pre).getThunkInfo inst r).2.run inst post := by
        rw [hsplit, HostServer.run, List.foldl_append]
        rfl
      rw [hrun]
      exact (visits_run inst _ post).subset hv
    rw [← hdir] at hfree
    refine h.inv.resolves v hvisits doc ?_ item hitem hfree
    rw [HasDocument, hdir]
    exact hdoc

/-! ## One pack -/

/-- The pack in `/p` has one reversed thunk. -/
def onePackDocument : Json.Object :=
  [("reversedThunks".toList, .array [.object [("name".toList, .string "r".toList),
    ("fileName".toList, .string "r.so".toList)]])]

def onePack (override : Option (Option Json)) : Installation Str where
  vars name :=
    if name = "GTL_DIR".toList then some "/g".toList
    else if name = "HTL_DIR".toList then some "/h".toList
    else none
  override := override
  hostArch := "x86_64".toList
  autoDiscover := true
  directory p := p
  packJson dir := if dir = "/p".toList then some (some (.object onePackDocument)) else none

/-- A guest thunk of that pack. -/
def fooRequest : Request := ⟨some "/p/x86_64/lib/x86_64-LoreGTL/foo.so".toList, false⟩

theorem discovered_onePack : Discovered (onePack none) [fooRequest] := by
  refine discovered_of_allMeet rfl ?_
  rintro pre r post hsplit
  obtain ⟨rfl, rfl, rfl⟩ : pre = [] ∧ fooRequest = r ∧ post = [] := by
    rcases pre with _ | ⟨a, pre⟩ <;> simp_all
  refine ⟨fun _ _ _ _ _ _ => rfl, ?_, ?_⟩
  · rintro _ - - - v hv
    cases hv
  · rintro prefixPath doc - - hdoc -
    obtain rfl : onePackDocument = doc := by
      rw [HasDocument, onePack] at hdoc
      simp only at hdoc
      split at hdoc
      · simpa using hdoc
      · cases hdoc
    have hnew : (configureThunkDiscovery (onePack none)).thunkDatabase.newReversed
        (reversedItems onePackDocument) = [⟨"r".toList, [], "r.so".toList, []⟩] := rfl
    show List.Pairwise _ ((configureThunkDiscovery (onePack none)).thunkDatabase.newReversed _)
    rw [hnew]
    exact List.pairwise_singleton _ _

/-- When the override knows `foo`, looking it up does not load its pack. -/
theorem not_discovered :
    (onePack (some (some (.object [("forwardThunks".toList, .array [.string "foo".toList])])))
      ).autoDiscover = true ∧
      ¬ Discovered (onePack (some (some (.object
        [("forwardThunks".toList, .array [.string "foo".toList])])))) [fooRequest] := by
  refine ⟨rfl, fun h => ?_⟩
  obtain ⟨i, -, hi, -⟩ := h.resolves [] fooRequest [] "/p".toList onePackDocument
    ⟨"r".toList, [], "r.so".toList, []⟩ rfl rfl ⟨rfl, rfl, rfl, rfl, by decide⟩ rfl
    (List.mem_singleton_self _) rfl
  cases hi

end Lorelei.HostRT
