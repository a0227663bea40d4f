import Lorelei.DLCall.Interning

/-!
# Packs under an override

A database is loaded once and then layered with packs.  A pack only appends: to the
arenas, to the entries and to the names that are indexed.  An index leads to the first
entry that owns a name, so what a name led to before it leads to ever after.
-/

namespace Lorelei.DLCall

open Support FirstOwner

namespace ThunkDatabase

variable {db db' db'' : ThunkDatabase}

/-- Every pointer of every entry is good. -/
structure Valid (db : ThunkDatabase) : Prop where
  lists : db.ListsValid
  forward : ∀ info ∈ db.forwardThunks, db.WithinForward info
  reversed : ∀ info ∈ db.reversedThunks, db.WithinReversed info

/-- Arenas and entries have been appended to. -/
structure Layered (db db' : ThunkDatabase) : Prop where
  strings : db.stringArena <+: db'.stringArena
  lists : db.listArena <+: db'.listArena
  forward : db.forwardThunks <+: db'.forwardThunks
  reversed : db.reversedThunks <+: db'.reversedThunks

theorem Layered.refl (db : ThunkDatabase) : Layered db db :=
  ⟨List.prefix_rfl, List.prefix_rfl, List.prefix_rfl, List.prefix_rfl⟩

theorem Layered.trans (h : Layered db db') (h' : Layered db' db'') : Layered db db'' where
  strings := h.strings.trans h'.strings
  lists := h.lists.trans h'.lists
  forward := h.forward.trans h'.forward
  reversed := h.reversed.trans h'.reversed

theorem valid_empty : empty.Valid where
  lists := by simp [ListsValid, empty]
  forward := by simp [empty]
  reversed := by simp [empty]

theorem Valid.interned (h : db.Valid) (hint : Interned db db') : db'.Valid where
  lists := hint.valid h.lists
  forward info hinfo :=
    (h.forward info (hint.forwardThunks ▸ hinfo)).mono hint.strings hint.lists
  reversed info hinfo :=
    (h.reversed info (hint.reversedThunks ▸ hinfo)).mono hint.strings hint.lists

/-! ## One entry -/

theorem upsertForward_valid (h : db.Valid) (overwrite : Bool) (item : ForwardThunk) :
    (db.upsertForward overwrite item).Valid := by
  obtain ⟨hint, hwithin, -⟩ := internForward_spec db item h.lists
  have hvalid := h.interned hint
  rw [upsertForward]
  split
  · split
    · refine ⟨hvalid.lists, fun info hinfo => ?_, hvalid.reversed⟩
      rcases List.mem_or_eq_of_mem_set hinfo with hmem | rfl
      · exact hvalid.forward info hmem
      · exact hwithin
    · exact h
  · refine ⟨hvalid.lists, fun info hinfo => ?_, hvalid.reversed⟩
    rcases List.mem_append.mp hinfo with hmem | hmem
    · exact hvalid.forward info hmem
    · rw [List.mem_singleton.mp hmem]
      exact hwithin

theorem upsertForward_layered (h : db.Valid) (item : ForwardThunk) :
    Layered db (db.upsertForward false item) := by
  obtain ⟨hint, -, -⟩ := internForward_spec db item h.lists
  rw [upsertForward]
  split
  · exact Layered.refl db
  · refine ⟨hint.strings, hint.lists, ?_, hint.reversedThunks ▸ List.prefix_rfl⟩
    exact hint.forwardThunks ▸ List.prefix_append _ _

theorem addReversed_valid (h : db.Valid) (overwrite : Bool) (item : ReversedThunk) :
    (db.addReversed overwrite item).Valid := by
  obtain ⟨hint, hwithin, -⟩ := internReversed_spec db item h.lists
  have hvalid := h.interned hint
  rw [addReversed]
  split
  · exact h
  · refine ⟨hvalid.lists, hvalid.forward, fun info hinfo => ?_⟩
    rcases List.mem_append.mp hinfo with hmem | hmem
    · exact hvalid.reversed info hmem
    · rw [List.mem_singleton.mp hmem]
      exact hwithin

theorem addReversed_layered (h : db.Valid) (overwrite : Bool) (item : ReversedThunk) :
    Layered db (db.addReversed overwrite item) := by
  obtain ⟨hint, -, -⟩ := internReversed_spec db item h.lists
  rw [addReversed]
  split
  · exact Layered.refl db
  · refine ⟨hint.strings, hint.lists, hint.forwardThunks ▸ List.prefix_rfl, ?_⟩
    exact hint.reversedThunks ▸ List.prefix_append _ _

/-! ## One document -/

theorem foldl_upsertForward_valid (h : db.Valid) (overwrite : Bool) (items : List ForwardThunk) :
    (items.foldl (fun db => db.upsertForward overwrite) db).Valid := by
  induction items generalizing db with
  | nil => exact h
  | cons item items ih => exact ih (upsertForward_valid h overwrite item)

theorem foldl_upsertForward_layered (h : db.Valid) (items : List ForwardThunk) :
    Layered db (items.foldl (fun db => db.upsertForward false) db) := by
  induction items generalizing db with
  | nil => exact Layered.refl db
  | cons item items ih =>
      exact (upsertForward_layered h item).trans (ih (upsertForward_valid h false item))

theorem foldl_addReversed_valid (h : db.Valid) (overwrite : Bool) (items : List ReversedThunk) :
    (items.foldl (fun db => db.addReversed overwrite) db).Valid := by
  induction items generalizing db with
  | nil => exact h
  | cons item items ih => exact ih (addReversed_valid h overwrite item)

theorem foldl_addReversed_layered (h : db.Valid) (overwrite : Bool) (items : List ReversedThunk) :
    Layered db (items.foldl (fun db => db.addReversed overwrite) db) := by
  induction items generalizing db with
  | nil => exact Layered.refl db
  | cons item items ih =>
      exact (addReversed_layered h overwrite item).trans (ih (addReversed_valid h overwrite item))

theorem loadJsonDatabase_valid (h : db.Valid) (json : Option Json) (vars : Vars)
    (overwrite : Bool) : (db.loadJsonDatabase json vars overwrite).2.Valid := by
  unfold loadJsonDatabase
  split
  · exact foldl_addReversed_valid (foldl_upsertForward_valid h overwrite _) overwrite _
  · exact h

theorem loadJsonDatabase_layered (h : db.Valid) (json : Option Json) (vars : Vars) :
    Layered db (db.loadJsonDatabase json vars false).2 := by
  unfold loadJsonDatabase
  split
  · exact (foldl_upsertForward_layered h _).trans
      (foldl_addReversed_layered (foldl_upsertForward_valid h false _) false _)
  · exact Layered.refl db

theorem loadJsonDatabase_of_false {json : Option Json} {vars : Vars} {overwrite : Bool}
    (h : (db.loadJsonDatabase json vars overwrite).1 = false) :
    (db.loadJsonDatabase json vars overwrite).2 = db := by
  unfold loadJsonDatabase at h ⊢
  split
  · simp at h
  · rfl

/-! ## Indexes -/

/-- A lookup finds the first entry that owns the name. -/
structure FirstKept (db : ThunkDatabase) : Prop where
  forward : ∀ k, db.forwardThunk k = firstOwner db.forwardNames db.forwardThunks k
  reversed : ∀ k, db.reversedThunk k = firstOwner db.reversedNames db.reversedThunks k

/-- What is found stays where it is and as it is. -/
structure Preserved (db db' : ThunkDatabase) : Prop where
  forward : ∀ k i, db.forwardThunk k = some i → db'.forwardThunk k = some i ∧
    ∃ info, db.forwardThunks[i]? = some info ∧ db'.forwardThunks[i]? = some info ∧
      db'.readForward info = db.readForward info
  reversed : ∀ k i, db.reversedThunk k = some i → db'.reversedThunk k = some i ∧
    ∃ info, db.reversedThunks[i]? = some info ∧ db'.reversedThunks[i]? = some info ∧
      db'.readReversed info = db.readReversed info

theorem firstKept_rebuildIndexes (db : ThunkDatabase) : db.rebuildIndexes.FirstKept where
  forward k := congrFun indexAll_eq_firstOwner k
  reversed k := congrFun indexAll_eq_firstOwner k

theorem Valid.rebuildIndexes (h : db.Valid) : db.rebuildIndexes.Valid :=
  ⟨h.lists, h.forward, h.reversed⟩

theorem forwardNames_eq (info : CForwardThunkInfo) :
    db.forwardNames info = (db.readForward info).name :: (db.readForward info).aliases := rfl

theorem reversedNames_eq (info : CReversedThunkInfo) :
    db.reversedNames info = (db.readReversed info).name :: (db.readReversed info).aliases := rfl

/-- Two indexed databases, one layered on the other. -/
theorem Layered.preserved (h : Layered db db') (hvalid : db.Valid) (hfirst : db.FirstKept)
    (hfirst' : db'.FirstKept) : Preserved db db' where
  forward k i hk := by
    have hread : ∀ info ∈ db.forwardThunks, db'.readForward info = db.readForward info :=
      fun info hinfo => readForward_congr (hvalid.forward info hinfo) hvalid.lists h.strings h.lists
    have howner := (hfirst.forward k).symm.trans hk
    obtain ⟨info, hget⟩ : ∃ info, db.forwardThunks[i]? = some info :=
      ⟨_, List.getElem?_eq_getElem (firstOwner_lt howner)⟩
    obtain ⟨more, hmore⟩ := h.forward
    refine ⟨?_, info, hget, ?_, hread info (List.mem_of_getElem? hget)⟩
    · rw [hfirst'.forward, ← hmore]
      refine firstOwner_append_of_some ?_
      rw [← howner]
      exact firstOwner_congr fun info hinfo => by
        rw [forwardNames_eq, forwardNames_eq, hread info hinfo]
    · rw [← hmore, List.getElem?_append_left (firstOwner_lt howner)]
      exact hget
  reversed k i hk := by
    have hread : ∀ info ∈ db.reversedThunks, db'.readReversed info = db.readReversed info :=
      fun info hinfo =>
        readReversed_congr (hvalid.reversed info hinfo) hvalid.lists h.strings h.lists
    have howner := (hfirst.reversed k).symm.trans hk
    obtain ⟨info, hget⟩ : ∃ info, db.reversedThunks[i]? = some info :=
      ⟨_, List.getElem?_eq_getElem (firstOwner_lt howner)⟩
    obtain ⟨more, hmore⟩ := h.reversed
    refine ⟨?_, info, hget, ?_, hread info (List.mem_of_getElem? hget)⟩
    · rw [hfirst'.reversed, ← hmore]
      refine firstOwner_append_of_some ?_
      rw [← howner]
      exact firstOwner_congr fun info hinfo => by
        rw [reversedNames_eq, reversedNames_eq, hread info hinfo]
    · rw [← hmore, List.getElem?_append_left (firstOwner_lt howner)]
      exact hget

/-! ## Runs -/

/-- The database after these packs. -/
def loadPacks (db : ThunkDatabase) (packs : List Pack) : ThunkDatabase :=
  packs.foldl (fun db pack => (db.loadPack pack).2) db

theorem load_valid (db : ThunkDatabase) (json : Option Json) (vars : Vars) :
    (db.load json vars).2.Valid :=
  (loadJsonDatabase_valid valid_empty json vars true).rebuildIndexes

theorem loadPack_valid (h : db.Valid) (pack : Pack) : (db.loadPack pack).2.Valid :=
  (loadJsonDatabase_valid h pack.json pack.packVars false).rebuildIndexes

theorem loadPacks_valid (h : db.Valid) (hfirst : db.FirstKept) (packs : List Pack) :
    (db.loadPacks packs).Valid ∧ (db.loadPacks packs).FirstKept := by
  induction packs generalizing db with
  | nil => exact ⟨h, hfirst⟩
  | cons pack packs ih => exact ih (loadPack_valid h pack) (firstKept_rebuildIndexes _)

theorem loadPack_preserved (h : db.Valid) (hfirst : db.FirstKept) (pack : Pack) :
    Preserved db (db.loadPack pack).2 := by
  have hlayered := loadJsonDatabase_layered h pack.json pack.packVars
  refine Layered.preserved ?_ h hfirst (firstKept_rebuildIndexes _)
  exact ⟨hlayered.strings, hlayered.lists, hlayered.forward, hlayered.reversed⟩

/-- A pack that cannot be read changes no lookup. -/
theorem loadPack_of_false (hfirst : db.FirstKept) {pack : Pack} (h : (db.loadPack pack).1 = false)
    (k : Str) : (db.loadPack pack).2.forwardThunk k = db.forwardThunk k ∧
      (db.loadPack pack).2.reversedThunk k = db.reversedThunk k := by
  have hsame : (db.loadPack pack).2 = db.rebuildIndexes :=
    congrArg ThunkDatabase.rebuildIndexes (loadJsonDatabase_of_false h)
  rw [hsame, hfirst.forward, hfirst.reversed]
  exact ⟨(firstKept_rebuildIndexes db).forward k, (firstKept_rebuildIndexes db).reversed k⟩

/-- After a load of the override and any packs, a lookup finds the first entry that owns
the name; another pack leaves what was found where and as it was, and changes nothing if
it cannot be read. -/
theorem lookups_stable (db₀ : ThunkDatabase) (json : Option Json) (vars : Vars)
    (packs : List Pack) (pack : Pack) :
    let db := (db₀.load json vars).2.loadPacks packs
    db.FirstKept ∧ Preserved db (db.loadPack pack).2 ∧
      ((db.loadPack pack).1 = false → ∀ k,
        (db.loadPack pack).2.forwardThunk k = db.forwardThunk k ∧
          (db.loadPack pack).2.reversedThunk k = db.reversedThunk k) := by
  intro db
  obtain ⟨hvalid, hfirst⟩ := loadPacks_valid (load_valid db₀ json vars)
    (firstKept_rebuildIndexes _) packs
  exact ⟨hfirst, loadPack_preserved hvalid hfirst pack, fun hfail => loadPack_of_false hfirst hfail⟩

end ThunkDatabase

end Lorelei.DLCall
