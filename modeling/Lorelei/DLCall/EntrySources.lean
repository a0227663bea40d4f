import Lorelei.DLCall.Overwrites

/-!
# Where entries come from

Loading a document adds its forward elements to the entries, or puts them in the place of
entries of the same name. So every entry is an element of a document that has been loaded.
-/

namespace Lorelei.DLCall.ThunkDatabase

open Support

variable {db : ThunkDatabase} {entry : ForwardThunk} {overwrite : Bool} {json : Option Json}
  {vars : Vars}

theorem mem_upsertForward (h : db.Valid) {item : ForwardThunk}
    (hmem : entry ∈ (db.upsertForward overwrite item).forwardEntries) :
    entry ∈ db.forwardEntries ∨ entry = item.truncate := by
  obtain ⟨hint, -, hread⟩ := internForward_spec db item h.lists
  have hentries := forwardEntries_congr hint h
  rw [upsertForward] at hmem
  split at hmem
  next i hi =>
    split at hmem
    · obtain ⟨info, hinfo, rfl⟩ := List.mem_map.mp hmem
      rcases List.mem_or_eq_of_mem_set hinfo with hold | rfl
      · rw [← hentries]
        exact .inl (List.mem_map_of_mem hold)
      · exact .inr hread
    · exact .inl hmem
  next =>
    obtain ⟨info, hinfo, rfl⟩ := List.mem_map.mp hmem
    rcases List.mem_append.mp hinfo with hold | hnew
    · rw [← hentries]
      exact .inl (List.mem_map_of_mem hold)
    · rw [List.mem_singleton.mp hnew]
      exact .inr hread

theorem mem_foldl_upsertForward (h : db.Valid) {items : List ForwardThunk}
    (hmem : entry ∈ (items.foldl (fun db => db.upsertForward overwrite) db).forwardEntries) :
    entry ∈ db.forwardEntries ∨ ∃ item ∈ items, entry = item.truncate := by
  induction items generalizing db with
  | nil => exact .inl hmem
  | cons item items ih =>
      rcases ih (upsertForward_valid h overwrite item) hmem with hold | ⟨item', hitem', rfl⟩
      · rcases mem_upsertForward h hold with hold | rfl
        · exact .inl hold
        · exact .inr ⟨item, List.mem_cons_self, rfl⟩
      · exact .inr ⟨item', List.mem_cons_of_mem _ hitem', rfl⟩

theorem foldl_addReversed_forwardEntries (h : db.Valid) (overwrite : Bool)
    (items : List ReversedThunk) :
    (items.foldl (fun db => db.addReversed overwrite) db).forwardEntries = db.forwardEntries := by
  induction items generalizing db with
  | nil => rfl
  | cons item items ih =>
      refine (ih (addReversed_valid h overwrite item)).trans ?_
      rw [addReversed]
      split
      · rfl
      · have hforward : (db.internReversed item).2.forwardEntries = db.forwardEntries :=
          forwardEntries_congr (internReversed_spec db item h.lists).1 h
        exact hforward

/-- An entry was there before a document was loaded, or it is one of its elements. -/
theorem mem_loadJsonDatabase (h : db.Valid)
    (hmem : entry ∈ (db.loadJsonDatabase json vars overwrite).2.forwardEntries) :
    entry ∈ db.forwardEntries ∨ ∃ item ∈ forwardElements json vars, entry = item.truncate := by
  unfold loadJsonDatabase at hmem
  split at hmem
  next doc =>
    have hvalid := foldl_upsertForward_valid h overwrite
      ((Json.arrayItems doc "forwardThunks").filterMap (forwardItem vars))
    have hforward := foldl_addReversed_forwardEntries hvalid overwrite
      ((Json.arrayItems doc "reversedThunks").filterMap reversedItem)
    exact mem_foldl_upsertForward h (hforward ▸ hmem)
  next => exact .inl hmem

theorem mem_load (db₀ : ThunkDatabase) (hmem : entry ∈ (db₀.load json vars).2.forwardEntries) :
    ∃ item ∈ forwardElements json vars, entry = item.truncate := by
  have hload : entry ∈ (empty.loadJsonDatabase json vars true).2.forwardEntries := hmem
  exact (mem_loadJsonDatabase valid_empty hload).resolve_left List.not_mem_nil

theorem mem_loadPack (h : db.Valid) {pack : Pack}
    (hmem : entry ∈ (db.loadPack pack).2.forwardEntries) :
    entry ∈ db.forwardEntries ∨
      ∃ item ∈ forwardElements pack.json pack.packVars, entry = item.truncate := by
  have hload : entry ∈ (db.loadJsonDatabase pack.json pack.packVars false).2.forwardEntries := hmem
  exact mem_loadJsonDatabase h hload

/-- What a lookup leads to is an entry. -/
theorem mem_of_findForward {name : Str} (h : db.findForward name = some entry) :
    entry ∈ db.forwardEntries := by
  obtain ⟨i, -, hi⟩ := Option.bind_eq_some_iff.mp h
  obtain ⟨info, hinfo, rfl⟩ := Option.map_eq_some_iff.mp hi
  exact List.mem_map_of_mem (List.mem_of_getElem? hinfo)

end Lorelei.DLCall.ThunkDatabase
