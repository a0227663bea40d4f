import Lorelei.DLCall.Overwrites
import Lorelei.Lib.Contributions

/-!
# Packs that are apart

A pack adds the elements whose names are not taken. Where no two packs have a name in common,
none of them takes a name from another, so a lookup finds the same in whatever order they are
loaded (`loadPacks_perm`).
-/

namespace Lorelei.DLCall

open Support FirstOwner LastNamed Contributions

namespace ThunkDatabase

variable {db : ThunkDatabase} {items : List ForwardThunk} {pack pack' : Pack}
  {packs packs' : List Pack}

/-- What a pack says, as it is read. -/
def Pack.forwardContent (pack : Pack) : List ForwardThunk :=
  (forwardElements pack.json pack.packVars).map ForwardThunk.truncate

def Pack.reversedContent (pack : Pack) : List ReversedThunk :=
  (reversedElements pack.json).map ReversedThunk.truncate

/-- The packs have no name and no alias in common. -/
structure Pack.Apart (pack pack' : Pack) : Prop where
  forward : KeysApart ForwardThunk.names pack.forwardContent pack'.forwardContent
  reversed : KeysApart ReversedThunk.names pack.reversedContent pack'.reversedContent

theorem Pack.Apart.symm (h : pack.Apart pack') : pack'.Apart pack :=
  ⟨h.forward.symm, h.reversed.symm⟩

/-- A document that cannot be read has no elements. -/
theorem loadJsonDatabase_snd (db : ThunkDatabase) (json : Option Json) (vars : Vars)
    (overwrite : Bool) : (db.loadJsonDatabase json vars overwrite).2 =
      (reversedElements json).foldl (fun db => db.addReversed overwrite)
        ((forwardElements json vars).foldl (fun db => db.upsertForward overwrite) db) := by
  rcases json with _ | json
  · rfl
  · cases json <;> rfl

/-! ## Forward entries -/

/-- What a pack adds to the forward entries. -/
def addedForward (items : List ForwardThunk) (pack : Pack) : List ForwardThunk :=
  added ForwardThunk.name items (forwardElements pack.json pack.packVars)

theorem Upserted.forwardIndex_isSome (h : db.Upserted items) (k : Str) :
    (db.forwardIndex k).isSome ↔ k ∈ items.map ForwardThunk.name := by
  rw [h.index, firstOwner_isSome_iff, List.mem_map]
  refine exists_congr fun item => and_congr_right fun _ => ?_
  rw [List.mem_singleton, eq_comm]

theorem Upserted.insert (h : db.Upserted items) {item : ForwardThunk}
    (hnew : item.name ∉ items.map ForwardThunk.name) :
    (db.upsertForward false item).Upserted (items ++ [item]) := by
  obtain ⟨hint, -, hread⟩ := internForward_spec db item h.valid.lists
  have hentries := (forwardEntries_congr hint h.valid).trans h.entries
  have hnone : db.forwardIndex item.name = none := by
    rw [← Option.not_isSome_iff_eq_none, h.forwardIndex_isSome]
    exact hnew
  have hlength : (db.internForward item).2.forwardThunks.length = items.length := by
    have hlen := congrArg List.length hentries
    rwa [forwardEntries, List.length_map, List.length_map] at hlen
  refine ⟨upsertForward_valid h.valid false item, ?_, fun k => ?_⟩
  · rw [upsertForward, hnone]
    show ((db.internForward item).2.forwardThunks ++ [_]).map _ = _
    rw [List.map_append, List.map_append, List.map_singleton, List.map_singleton, ← hread]
    exact congrArg (· ++ [_]) hentries
  · rw [upsertForward, hnone]
    show emplace (db.internForward item).2.forwardIndex item.name _ k = _
    rw [emplace_apply, hint.forwardIndex, h.index, hlength]
    cases hk : firstOwner (fun item => [item.name]) items k with
    | some i => rw [firstOwner_append_of_some hk, Option.some_or]
    | none =>
        rw [firstOwner_append_of_none hk, Option.none_or]
        by_cases hkt : k = item.name <;> simp [firstOwner, List.findIdx?_cons, hkt]

theorem Upserted.skip (h : db.Upserted items) {item : ForwardThunk}
    (hold : item.name ∈ items.map ForwardThunk.name) : db.upsertForward false item = db := by
  obtain ⟨i, hi⟩ := Option.isSome_iff_exists.mp ((h.forwardIndex_isSome item.name).mpr hold)
  rw [upsertForward, hi]
  rfl

theorem Upserted.foldl (h : db.Upserted items) (more : List ForwardThunk) :
    (more.foldl (fun db => db.upsertForward false) db).Upserted
      (items ++ added ForwardThunk.name items more) := by
  induction more generalizing db items with
  | nil => exact (List.append_nil items).symm ▸ h
  | cons item more ih =>
      rw [List.foldl_cons, added]
      split
      next hold => exact (h.skip hold).symm ▸ ih h
      next hnew =>
        have hmore := ih (h.insert hnew)
        rwa [List.append_assoc] at hmore

theorem addReversed_forwardIndex (db : ThunkDatabase) (overwrite : Bool) (item : ReversedThunk)
    (h : db.Valid) : (db.addReversed overwrite item).forwardIndex = db.forwardIndex ∧
      (db.addReversed overwrite item).forwardEntries = db.forwardEntries := by
  obtain ⟨hint, -, -⟩ := internReversed_spec db item h.lists
  have hentries := forwardEntries_congr hint h
  rw [addReversed]
  split
  · exact ⟨rfl, rfl⟩
  · exact ⟨hint.forwardIndex, hentries⟩

theorem Upserted.addReversed (h : db.Upserted items) (overwrite : Bool)
    (more : List ReversedThunk) :
    (more.foldl (fun db => db.addReversed overwrite) db).Upserted items := by
  induction more generalizing db with
  | nil => exact h
  | cons item more ih =>
      obtain ⟨hindex, hentries⟩ := addReversed_forwardIndex db overwrite item h.valid
      refine ih ⟨addReversed_valid h.valid overwrite item, hentries.trans h.entries, fun k => ?_⟩
      rw [hindex]
      exact h.index k

/-- A pack that is loaded appends the elements whose names are not there. -/
theorem Upserted.loadPack (h : db.Upserted items) (pack : Pack) :
    (db.loadPack pack).2.Upserted (contribute addedForward items pack) := by
  have hload : (db.loadJsonDatabase pack.json pack.packVars false).2.Upserted
      (contribute addedForward items pack) := by
    rw [loadJsonDatabase_snd]
    exact (h.foldl _).addReversed false _
  exact ⟨hload.valid.rebuildIndexes, hload.entries, hload.index⟩

/-! ## Reversed entries -/

/-- What a pack adds to the reversed entries. -/
def addedReversed (entries : List ReversedThunk) (pack : Pack) : List ReversedThunk :=
  ((reversedElements pack.json).filter fun item =>
    (find ReversedThunk.names entries item.name).isNone).map ReversedThunk.truncate

theorem FirstKept.reversedThunk_isNone (h : db.FirstKept) (k : Str) :
    (db.reversedThunk k).isNone = (find ReversedThunk.names db.reversedEntries k).isNone := by
  rw [h.reversedThunk_eq, Bool.eq_iff_iff, Option.isNone_iff_eq_none, Option.isNone_iff_eq_none,
    firstOwner_isNone_iff]

theorem loadPack_addedReversed (hvalid : db.Valid) (hfirst : db.FirstKept) (pack : Pack) :
    (db.loadPack pack).2.reversedEntries =
      contribute addedReversed db.reversedEntries pack := by
  have hforward := foldl_upsertForward_valid hvalid false (forwardElements pack.json pack.packVars)
  obtain ⟨hentries, hmap⟩ := foldl_upsertForward_reversed hvalid false
    (forwardElements pack.json pack.packVars)
  obtain ⟨hentries', -⟩ := foldl_addReversed_reversed hforward (reversedElements pack.json)
  rw [← loadJsonDatabase_snd, hentries, newReversed, hmap] at hentries'
  refine hentries'.trans ?_
  rw [contribute, addedReversed]
  congr 2
  exact List.filter_congr fun item _ => hfirst.reversedThunk_isNone item.name

/-! ## All packs -/

/-- A database that only elements of names that it did not have have been added to. -/
structure Stacked (db : ThunkDatabase) (items : List ForwardThunk)
    (entries : List ReversedThunk) : Prop where
  upserted : db.Upserted items
  reversed : db.reversedEntries = entries
  firstKept : db.FirstKept

theorem stacked_empty : empty.Stacked [] [] where
  upserted := ⟨valid_empty, rfl, fun _ => rfl⟩
  reversed := rfl
  firstKept := ⟨fun _ => rfl, fun _ => rfl⟩

theorem stacked_load (db₀ : ThunkDatabase) (json : Option Json) (vars : Vars) :
    (db₀.load json vars).2.Stacked (upsertAll ForwardThunk.name (forwardElements json vars))
      ((reversedElements json).map ReversedThunk.truncate) := by
  refine ⟨?_, (load_entries db₀ json vars).2, firstKept_rebuildIndexes _⟩
  have hload : (empty.loadJsonDatabase json vars true).2.Upserted
      (upsertAll ForwardThunk.name (forwardElements json vars)) := by
    rw [loadJsonDatabase_snd]
    exact (upserted_foldl _).addReversed true _
  exact ⟨hload.valid.rebuildIndexes, hload.entries, hload.index⟩

theorem Stacked.loadPack {entries : List ReversedThunk} (h : db.Stacked items entries)
    (pack : Pack) : (db.loadPack pack).2.Stacked (contribute addedForward items pack)
      (contribute addedReversed entries pack) := by
  refine ⟨h.upserted.loadPack pack, ?_, firstKept_rebuildIndexes _⟩
  rw [← h.reversed]
  exact loadPack_addedReversed h.upserted.valid h.firstKept pack

theorem Stacked.loadPacks {entries : List ReversedThunk} (h : db.Stacked items entries)
    (packs : List Pack) : (db.loadPacks packs).Stacked (packs.foldl (contribute addedForward) items)
      (packs.foldl (contribute addedReversed) entries) := by
  induction packs generalizing db items entries with
  | nil => exact h
  | cons pack packs ih => exact ih (h.loadPack pack)

theorem mem_forwardContent {t : ForwardThunk} (h : t ∈ (addedForward items pack)) :
    t.truncate ∈ pack.forwardContent :=
  List.mem_map_of_mem (mem_of_mem_added h)

theorem mem_reversedContent {entries : List ReversedThunk} {t : ReversedThunk}
    (h : t ∈ addedReversed entries pack) : t ∈ pack.reversedContent := by
  obtain ⟨item, hitem, rfl⟩ := List.mem_map.mp h
  exact List.mem_map_of_mem (List.mem_of_mem_filter hitem)

theorem foldl_addedForward (hpacks : packs.Pairwise Pack.Apart) (items : List ForwardThunk) :
    packs.foldl (contribute addedForward) items = items ++ packs.flatMap (addedForward items) := by
  let foreign (e : ForwardThunk) (pack : Pack) : Prop :=
    ∀ t ∈ forwardElements pack.json pack.packVars, e.name ≠ t.name
  refine foldl_contribute foreign ?_ ?_ hpacks items
  · intro items more pack hmore
    exact added_append fun t ht e he => hmore e he t ht
  · intro items pack pack' hapart e he t ht hname
    -- elements of one name own it, once they are read
    refine hapart.forward e.truncate (mem_forwardContent he) t.truncate (List.mem_map_of_mem ht)
      (cString e.name) List.mem_cons_self ?_
    rw [hname]
    exact List.mem_cons_self

theorem foldl_addedReversed (hpacks : packs.Pairwise Pack.Apart) (entries : List ReversedThunk) :
    packs.foldl (contribute addedReversed) entries =
      entries ++ packs.flatMap (addedReversed entries) := by
  let foreign (e : ReversedThunk) (pack : Pack) : Prop :=
    ∀ t ∈ reversedElements pack.json, t.name ∉ e.names
  refine foldl_contribute foreign ?_ ?_ hpacks entries
  · intro entries more pack hmore
    rw [addedReversed, addedReversed]
    congr 1
    refine List.filter_congr fun t ht => ?_
    have hnone : find ReversedThunk.names more t.name = none :=
      find_eq_none_iff.mpr fun e he => hmore e he t ht
    rw [find_append, hnone, Option.or_none]
  · intro entries pack pack' hapart e he t ht hname
    -- only C strings are owned
    obtain ⟨item, -, rfl⟩ := List.mem_map.mp he
    have hcstring : cString t.name = t.name := by
      rcases List.mem_cons.mp hname with heq | hmem
      · rw [heq]
        exact cString_cString _
      · obtain ⟨other, -, heq⟩ := List.mem_map.mp hmem
        rw [← heq]
        exact cString_cString _
    refine hapart.reversed _ (mem_reversedContent he) t.truncate (List.mem_map_of_mem ht)
      t.name hname ?_
    rw [← hcstring]
    exact List.mem_cons_self

/-- A lookup finds what it has found before, and else what it finds in what the packs add,
in any order of the packs. -/
theorem loadPacks_perm {entries : List ReversedThunk} (h : db.Stacked items entries)
    (hperm : packs.Perm packs') (hpacks : packs.Pairwise Pack.Apart) :
    (db.loadPacks packs).findForward = (db.loadPacks packs').findForward ∧
      (db.loadPacks packs).findReversed = (db.loadPacks packs').findReversed := by
  have hpacks' : packs'.Pairwise Pack.Apart := hperm.pairwise hpacks fun h => h.symm
  have hstacked := h.loadPacks packs
  have hstacked' := h.loadPacks packs'
  constructor
  · funext k
    rw [hstacked.firstKept.findForward_eq, hstacked'.firstKept.findForward_eq,
      hstacked.upserted.entries, hstacked'.upserted.entries, foldl_addedForward hpacks,
      foldl_addedForward hpacks', List.map_append, List.map_append, find_append, find_append,
      List.map_flatMap, List.map_flatMap]
    congr 1
    refine find_flatMap_perm hperm _ (hpacks.imp fun hapart a ha b hb => ?_)
    obtain ⟨t, ht, rfl⟩ := List.mem_map.mp ha
    obtain ⟨u, hu, rfl⟩ := List.mem_map.mp hb
    exact hapart.forward _ (mem_forwardContent ht) _ (mem_forwardContent hu)
  · funext k
    rw [hstacked.firstKept.findReversed_eq, hstacked'.firstKept.findReversed_eq,
      hstacked.reversed, hstacked'.reversed, foldl_addedReversed hpacks,
      foldl_addedReversed hpacks', find_append, find_append]
    congr 1
    refine find_flatMap_perm hperm _ (hpacks.imp fun hapart a ha b hb => ?_)
    exact hapart.reversed a (mem_reversedContent ha) b (mem_reversedContent hb)

theorem FirstKept.forwardThunk_eq_none_iff (h : db.FirstKept) {k : Str} :
    db.forwardThunk k = none ↔ ∀ entry ∈ db.forwardEntries, k ∉ entry.names := by
  rw [← find_eq_none_iff, ← firstOwner_isNone_iff, h.forward, forwardEntries, firstOwner_map]
  rfl

theorem mem_foldl_addedForward {t : ForwardThunk}
    (ht : t ∈ packs.foldl (contribute addedForward) items) :
    t ∈ items ∨ ∃ pack ∈ packs, t.truncate ∈ pack.forwardContent := by
  induction packs generalizing items with
  | nil => exact .inl ht
  | cons pack packs ih =>
      rcases ih ht with ht | ⟨pack', hpack', hcontent⟩
      · rcases List.mem_append.mp ht with hold | hnew
        · exact .inl hold
        · exact .inr ⟨pack, List.mem_cons_self, mem_forwardContent hnew⟩
      · exact .inr ⟨pack', List.mem_cons_of_mem pack hpack', hcontent⟩

/-- What is missing after packs have been loaded has been missing before. -/
theorem forwardThunk_of_loadPacks {entries : List ReversedThunk} (h : db.Stacked items entries)
    {k : Str} (hnone : (db.loadPacks packs).forwardThunk k = none) : db.forwardThunk k = none := by
  have hstacked := h.loadPacks packs
  rw [hstacked.firstKept.forwardThunk_eq_none_iff, hstacked.upserted.entries] at hnone
  rw [h.firstKept.forwardThunk_eq_none_iff, h.upserted.entries]
  intro entry hentry
  exact hnone entry (List.map_subset _ (subset_foldl_contribute addedForward items packs) hentry)

/-- What is no longer missing after packs have been loaded is what one of them says. -/
theorem exists_of_loadPacks {entries : List ReversedThunk} (h : db.Stacked items entries)
    {k : Str} (hnone : db.forwardThunk k = none)
    (hfound : (db.loadPacks packs).forwardThunk k ≠ none) :
    ∃ pack ∈ packs, ∃ entry ∈ pack.forwardContent, k ∈ entry.names := by
  have hstacked := h.loadPacks packs
  rw [Ne, hstacked.firstKept.forwardThunk_eq_none_iff, hstacked.upserted.entries] at hfound
  rw [h.firstKept.forwardThunk_eq_none_iff, h.upserted.entries] at hnone
  push Not at hfound
  obtain ⟨_, hentry, hk⟩ := hfound
  obtain ⟨t, ht, rfl⟩ := List.mem_map.mp hentry
  rcases mem_foldl_addedForward ht with hold | ⟨pack, hpack, hcontent⟩
  · exact absurd hk (hnone _ (List.mem_map_of_mem hold))
  · exact ⟨pack, hpack, _, hcontent, hk⟩

end ThunkDatabase

end Lorelei.DLCall
