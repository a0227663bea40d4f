import Lorelei.DLCall.PackEntries
import Lorelei.Lib.LastNamed

/-!
# Elements of one name

A document may have several elements of one name, of which the last is meant. The forward
entries are kept free of the others while the document is read, by an index of their names.
The reversed entries are all kept, and the index that is built of them leads to the first.
-/

namespace Lorelei.DLCall

open Support FirstOwner LastNamed

/-- The names under which an entry is indexed. -/
def ForwardThunk.names (entry : ForwardThunk) : List Str := entry.name :: entry.aliases

/-- The valid elements of a document, for each kind of entry. -/
def forwardElements (json : Option Json) (vars : Vars) : List ForwardThunk :=
  match json with
  | some (.object doc) => (Json.arrayItems doc "forwardThunks").filterMap (forwardItem vars)
  | _ => []

def reversedElements (json : Option Json) : List ReversedThunk :=
  match json with
  | some (.object doc) => reversedItems doc
  | _ => []

namespace ThunkDatabase

variable {db db' : ThunkDatabase}

/-- What the forward entries say. -/
def forwardEntries (db : ThunkDatabase) : List ForwardThunk :=
  db.forwardThunks.map db.readForward

/-- What a lookup leads to. -/
def findForward (db : ThunkDatabase) (name : Str) : Option ForwardThunk :=
  (db.forwardThunk name).bind fun i => db.forwardThunks[i]?.map db.readForward

def findReversed (db : ThunkDatabase) (name : Str) : Option ReversedThunk :=
  (db.reversedThunk name).bind fun i => db.reversedThunks[i]?.map db.readReversed

theorem forwardEntries_congr (h : Interned db db') (hvalid : db.Valid) :
    db'.forwardEntries = db.forwardEntries := by
  rw [forwardEntries, forwardEntries, h.forwardThunks]
  apply List.map_congr_left
  intro info hinfo
  exact readForward_congr (hvalid.forward info hinfo) hvalid.lists h.strings h.lists

/-! ## Forward entries -/

/-- The entries say what is left of these items, and the index knows their places. -/
structure Upserted (db : ThunkDatabase) (items : List ForwardThunk) : Prop where
  valid : db.Valid
  entries : db.forwardEntries = items.map ForwardThunk.truncate
  index : ∀ k, db.forwardIndex k = firstOwner (fun item => [item.name]) items k

theorem Upserted.step {items : List ForwardThunk} (h : db.Upserted items) (item : ForwardThunk) :
    (db.upsertForward true item).Upserted (upsert ForwardThunk.name items item) := by
  obtain ⟨hint, hwithin, hread⟩ := internForward_spec db item h.valid.lists
  have hentries := (forwardEntries_congr hint h.valid).trans h.entries
  have hlength : (db.internForward item).2.forwardThunks.length = items.length := by
    have hlen := congrArg List.length hentries
    rwa [forwardEntries, List.length_map, List.length_map] at hlen
  refine ⟨upsertForward_valid h.valid true item, ?_, ?_⟩
  · rw [upsertForward, h.index, upsert]
    cases hi : firstOwner (fun item => [item.name]) items item.name with
    | some i =>
      dsimp only
      rw [if_pos rfl]
      show ((db.internForward item).2.forwardThunks.set i _).map _ = _
      rw [List.map_set, List.map_set, ← hread]
      exact congrArg (List.set · i _) hentries
    | none =>
      show ((db.internForward item).2.forwardThunks ++ [_]).map _ = _
      rw [List.map_append, List.map_append, List.map_singleton, List.map_singleton, ← hread]
      exact congrArg (· ++ [_]) hentries
  · intro k
    rw [firstOwner_upsert, ← h.index k, ← hlength]
    rw [upsertForward]
    split
    next i hi =>
      rw [if_pos rfl]
      show (db.internForward item).2.forwardIndex k = _
      rw [hint.forwardIndex]
      by_cases hk : k = item.name
      · rw [hk, hi, Option.some_or]
      · rw [if_neg hk, Option.or_none]
    next hnone =>
      show emplace (db.internForward item).2.forwardIndex item.name _ k = _
      rw [emplace_apply, hint.forwardIndex]

theorem upserted_foldl (items : List ForwardThunk) :
    (items.foldl (fun db => db.upsertForward true) empty).Upserted
      (upsertAll ForwardThunk.name items) := by
  induction items using List.reverseRecOn with
  | nil => exact ⟨valid_empty, rfl, fun k => rfl⟩
  | append_singleton items item ih =>
      rw [List.foldl_append, upsertAll_append_singleton]
      exact ih.step item

/-! ## Reversed entries -/

theorem addReversed_entries (h : db.Valid) (item : ReversedThunk) :
    (db.addReversed true item).reversedEntries = db.reversedEntries ++ [item.truncate] ∧
      (db.addReversed true item).forwardEntries = db.forwardEntries := by
  obtain ⟨hint, -, hread⟩ := internReversed_spec db item h.lists
  have hadd : db.addReversed true item =
      { (db.internReversed item).2 with
        reversedThunks := (db.internReversed item).2.reversedThunks ++
          [(db.internReversed item).1] } := rfl
  rw [hadd]
  have hforward : (db.internReversed item).2.forwardEntries = db.forwardEntries :=
    forwardEntries_congr hint h
  refine ⟨?_, hforward⟩
  rw [reversedEntries, List.map_append]
  exact congrArg₂ (· ++ [·]) (reversedEntries_congr hint h) hread

theorem foldl_addReversed_entries (h : db.Valid) (items : List ReversedThunk) :
    let db' := items.foldl (fun db => db.addReversed true) db
    db'.reversedEntries = db.reversedEntries ++ items.map ReversedThunk.truncate ∧
      db'.forwardEntries = db.forwardEntries := by
  induction items generalizing db with
  | nil => exact ⟨(List.append_nil _).symm, rfl⟩
  | cons item items ih =>
      obtain ⟨hreversed, hforward⟩ := addReversed_entries h item
      obtain ⟨hreversed', hforward'⟩ := ih (addReversed_valid h true item)
      refine ⟨?_, hforward'.trans hforward⟩
      show _ = _
      rw [List.foldl_cons, hreversed', hreversed, List.append_assoc]
      rfl

/-! ## The loaded database -/

/-- The entries of a loaded database: of the forward elements the last of each name, in the
places of the first ones, and all reversed elements. -/
theorem load_entries (db₀ : ThunkDatabase) (json : Option Json) (vars : Vars) :
    (db₀.load json vars).2.forwardEntries =
        (upsertAll ForwardThunk.name (forwardElements json vars)).map ForwardThunk.truncate ∧
      (db₀.load json vars).2.reversedEntries =
        (reversedElements json).map ReversedThunk.truncate := by
  have hload : (db₀.load json vars).2 = (empty.loadJsonDatabase json vars true).2.rebuildIndexes :=
    rfl
  rw [hload]
  show (empty.loadJsonDatabase json vars true).2.forwardEntries = _ ∧
    (empty.loadJsonDatabase json vars true).2.reversedEntries = _
  cases json with
  | none => exact ⟨rfl, rfl⟩
  | some json =>
      cases json with
      | object doc =>
          let forward := (Json.arrayItems doc "forwardThunks").filterMap (forwardItem vars)
          have hupserted := upserted_foldl forward
          obtain ⟨hreversed, hforward⟩ :=
            foldl_addReversed_entries hupserted.valid (reversedItems doc)
          obtain ⟨hempty, -⟩ := foldl_upsertForward_reversed valid_empty true forward
          refine ⟨hforward.trans hupserted.entries, hreversed.trans ?_⟩
          rw [hempty]
          rfl
      | _ => exact ⟨rfl, rfl⟩

theorem FirstKept.findForward_eq (h : db.FirstKept) :
    db.findForward = find ForwardThunk.names db.forwardEntries := by
  funext k
  rw [← firstOwner_bind_getElem?, findForward, h.forward, forwardEntries, firstOwner_map]
  simp only [List.getElem?_map]
  rfl

theorem FirstKept.findReversed_eq (h : db.FirstKept) :
    db.findReversed = find ReversedThunk.names db.reversedEntries := by
  funext k
  rw [← firstOwner_bind_getElem?, findReversed, h.reversed, reversedEntries, firstOwner_map]
  simp only [List.getElem?_map]
  rfl

/-- Among the entries of each kind the last one of a name is found, exactly if every entry
that is not the last one of its name has none that does not lead to an entry in front of
it. -/
theorem load_lastWins_iff (db₀ : ThunkDatabase) (json : Option Json) (vars : Vars) :
    let db := (db₀.load json vars).2
    let forward := (forwardElements json vars).map ForwardThunk.truncate
    let kept := (upsertAll ForwardThunk.name (forwardElements json vars)).map ForwardThunk.truncate
    let reversed := (reversedElements json).map ReversedThunk.truncate
    (LastWins ForwardThunk.name ForwardThunk.names forward db.findForward ∧
        LastWins ReversedThunk.name ReversedThunk.names reversed db.findReversed) ↔
      FirstsLast ForwardThunk.name ForwardThunk.names forward kept ∧
        FirstsLast ReversedThunk.name ReversedThunk.names reversed reversed := by
  intro db forward kept reversed
  have hfirst : db.FirstKept := firstKept_rebuildIndexes _
  obtain ⟨hforward, hreversed⟩ := load_entries db₀ json vars
  rw [hfirst.findForward_eq, hfirst.findReversed_eq, hforward, hreversed]
  refine and_congr (lastWins_iff fun t ht => ?_) (lastWins_iff fun t ht => ?_)
  · -- the element that the index knows under the whole name
    obtain ⟨element, helement, rfl⟩ := List.mem_map.mp (mem_of_lastNamed ht)
    obtain ⟨last, hlast⟩ : ∃ last, lastNamed ForwardThunk.name (forwardElements json vars)
        element.name = some last := exists_lastNamed helement
    have hname := name_of_lastNamed hlast
    have hmem : last ∈ upsertAll ForwardThunk.name (forwardElements json vars) :=
      (mem_upsertAll.2 last).mpr (by rw [Survives, hname, hlast])
    refine ⟨last.truncate, List.mem_map_of_mem hmem, ?_⟩
    rw [ForwardThunk.names, ForwardThunk.truncate, ForwardThunk.truncate, hname]
    exact List.mem_cons_self
  · exact ⟨t, mem_of_lastNamed ht, List.mem_cons_self⟩

/-- Where no name has a NUL, every forward entry is the last one of its name. -/
theorem firstsLast_forward {items : List ForwardThunk} (h : ∀ item ∈ items, '\x00' ∉ item.name) :
    FirstsLast ForwardThunk.name ForwardThunk.names (items.map ForwardThunk.truncate)
      ((upsertAll ForwardThunk.name items).map ForwardThunk.truncate) := by
  intro pre t post heq
  have hmem : t ∈ (upsertAll ForwardThunk.name items).map ForwardThunk.truncate := by
    rw [heq]
    exact List.mem_append_right _ List.mem_cons_self
  obtain ⟨item, hitem, rfl⟩ := List.mem_map.mp hmem
  refine .inl ?_
  have hlast := (mem_upsertAll.2 item).mp hitem
  have hname : ∀ item ∈ items, item.truncate.name = item.name := by
    intro item hitem
    refine List.takeWhile_eq_self_iff.mpr fun ch hch => decide_eq_true ?_
    rintro rfl
    exact h item hitem hch
  rw [Survives, hname item (mem_of_lastNamed hlast), lastNamed_map hname, hlast]
  rfl

/-- `[{"name": "a", "fileName": "f"}, {"name": "a", "fileName": "g"}]` as reversed entries. -/
def twoReversed : Json :=
  .object [("reversedThunks".toList, .array
    [.object [("name".toList, .string "a".toList), ("fileName".toList, .string "f".toList)],
      .object [("name".toList, .string "a".toList), ("fileName".toList, .string "g".toList)]])]

/-- The first of two reversed entries of a name is found. -/
theorem not_load_lastWins :
    ¬ LastWins ReversedThunk.name ReversedThunk.names
      ((reversedElements (some twoReversed)).map ReversedThunk.truncate)
      (empty.load (some twoReversed) fun _ => none).2.findReversed := by
  intro h
  have hfind : (empty.load (some twoReversed) fun _ => none).2.findReversed "a".toList =
      some ⟨"a".toList, [], "f".toList, []⟩ := by decide
  have hsurvives := (h.reachable _ _ hfind).1
  revert hsurvives
  decide

end ThunkDatabase

end Lorelei.DLCall
