import Lorelei.DLCall.Layers

/-!
# What a pack adds

Loading a pack leaves the entries that are there and appends, in order, what its
reversed entries say, except those whose name is indexed already.
-/

namespace Lorelei.DLCall

open Support FirstOwner

/-- The names under which an entry is indexed. -/
def ReversedThunk.names (entry : ReversedThunk) : List Str := entry.name :: entry.aliases

/-- The reversed entries of a document, as they are read. -/
def reversedItems (doc : Json.Object) : List ReversedThunk :=
  (Json.arrayItems doc "reversedThunks").filterMap reversedItem

theorem cString_cString (s : Str) : cString (cString s) = cString s :=
  List.takeWhile_idem

namespace ThunkDatabase

variable {db db' : ThunkDatabase} {item : ReversedThunk} {items : List ReversedThunk}

/-- What the reversed entries say. -/
def reversedEntries (db : ThunkDatabase) : List ReversedThunk :=
  db.reversedThunks.map db.readReversed

/-- A name leads to an entry that says this. -/
def Resolves (db : ThunkDatabase) (key : Str) (entry : ReversedThunk) : Prop :=
  ∃ i info, db.reversedThunk key = some i ∧ db.reversedThunks[i]? = some info ∧
    db.readReversed info = entry

/-- The items that a pack adds: those whose name is not indexed. -/
def newReversed (db : ThunkDatabase) (items : List ReversedThunk) : List ReversedThunk :=
  items.filter fun item => (db.reversedThunkMap item.name).isNone

theorem reversedEntries_congr (h : Interned db db') (hvalid : db.Valid) :
    db'.reversedEntries = db.reversedEntries := by
  rw [reversedEntries, reversedEntries, h.reversedThunks]
  apply List.map_congr_left
  intro info hinfo
  exact readReversed_congr (hvalid.reversed info hinfo) hvalid.lists h.strings h.lists

theorem upsertForward_reversed (h : db.Valid) (overwrite : Bool) (item : ForwardThunk) :
    (db.upsertForward overwrite item).reversedEntries = db.reversedEntries ∧
      (db.upsertForward overwrite item).reversedThunkMap = db.reversedThunkMap := by
  obtain ⟨hint, -, -⟩ := internForward_spec db item h.lists
  have hentries := reversedEntries_congr hint h
  rw [upsertForward]
  split
  · split
    · exact ⟨hentries, hint.reversedThunkMap⟩
    · exact ⟨rfl, rfl⟩
  · exact ⟨hentries, hint.reversedThunkMap⟩

theorem addReversed_reversed (h : db.Valid) (item : ReversedThunk) :
    (db.addReversed false item).reversedEntries =
        db.reversedEntries ++ (db.newReversed [item]).map ReversedThunk.truncate ∧
      (db.addReversed false item).reversedThunkMap = db.reversedThunkMap := by
  obtain ⟨hint, -, hread⟩ := internReversed_spec db item h.lists
  cases hmap : db.reversedThunkMap item.name with
  | some i => simp [addReversed, newReversed, hmap]
  | none =>
      have hadd : db.addReversed false item =
          { (db.internReversed item).2 with
            reversedThunks := (db.internReversed item).2.reversedThunks ++
              [(db.internReversed item).1] } := by
        simp [addReversed, hmap]
      rw [hadd]
      refine ⟨?_, hint.reversedThunkMap⟩
      rw [reversedEntries, List.map_append, newReversed, List.filter_singleton, hmap]
      exact congrArg₂ (· ++ [·]) (reversedEntries_congr hint h) hread

theorem foldl_upsertForward_reversed (h : db.Valid) (overwrite : Bool)
    (items : List ForwardThunk) :
    let db' := items.foldl (fun db => db.upsertForward overwrite) db
    db'.reversedEntries = db.reversedEntries ∧ db'.reversedThunkMap = db.reversedThunkMap := by
  induction items generalizing db with
  | nil => exact ⟨rfl, rfl⟩
  | cons item items ih =>
      obtain ⟨hentries, hmap⟩ := upsertForward_reversed h overwrite item
      obtain ⟨hentries', hmap'⟩ := ih (upsertForward_valid h overwrite item)
      exact ⟨hentries'.trans hentries, hmap'.trans hmap⟩

theorem foldl_addReversed_reversed (h : db.Valid) (items : List ReversedThunk) :
    let db' := items.foldl (fun db => db.addReversed false) db
    db'.reversedEntries =
        db.reversedEntries ++ (db.newReversed items).map ReversedThunk.truncate ∧
      db'.reversedThunkMap = db.reversedThunkMap := by
  induction items generalizing db with
  | nil => exact ⟨by simp [newReversed], rfl⟩
  | cons item items ih =>
      obtain ⟨hentries, hmap⟩ := addReversed_reversed h item
      obtain ⟨hentries', hmap'⟩ := ih (addReversed_valid h false item)
      refine ⟨?_, hmap'.trans hmap⟩
      have hnew : db.newReversed (item :: items) =
          db.newReversed [item] ++ (db.addReversed false item).newReversed items := by
        rw [newReversed, newReversed, newReversed, hmap, ← List.filter_append]
        rfl
      rw [hnew, List.map_append, ← List.append_assoc, ← hentries]
      exact hentries'

/-- What a pack that can be read adds. -/
theorem loadPack_reversedEntries (h : db.Valid) {pack : Pack} {doc : Json.Object}
    (hjson : pack.json = some (.object doc)) :
    (db.loadPack pack).2.reversedEntries =
      db.reversedEntries ++ (db.newReversed (reversedItems doc)).map ReversedThunk.truncate := by
  have hforward := foldl_upsertForward_valid h false
    ((Json.arrayItems doc "forwardThunks").filterMap (forwardItem pack.packVars))
  obtain ⟨hentries, hmap⟩ := foldl_upsertForward_reversed h false
    ((Json.arrayItems doc "forwardThunks").filterMap (forwardItem pack.packVars))
  obtain ⟨hentries', -⟩ := foldl_addReversed_reversed hforward (reversedItems doc)
  rw [hentries, newReversed, hmap] at hentries'
  obtain ⟨json, guestThunkDir, hostThunkDir, vars⟩ := pack
  obtain rfl : json = some (.object doc) := hjson
  exact hentries'

/-- A lookup finds the first entry that says it has the name. -/
theorem FirstKept.reversedThunk_eq (h : db.FirstKept) (k : Str) :
    db.reversedThunk k = firstOwner ReversedThunk.names db.reversedEntries k := by
  rw [h.reversed, reversedEntries, firstOwner_map]
  rfl

theorem resolves_iff {key : Str} {entry : ReversedThunk} :
    db.Resolves key entry ↔
      ∃ i, db.reversedThunk key = some i ∧ db.reversedEntries[i]? = some entry := by
  constructor
  · rintro ⟨i, info, hi, hget, rfl⟩
    exact ⟨i, hi, by rw [reversedEntries, List.getElem?_map, hget]; rfl⟩
  · rintro ⟨i, hi, hget⟩
    rw [reversedEntries, List.getElem?_map] at hget
    obtain ⟨info, hinfo, rfl⟩ := Option.map_eq_some_iff.mp hget
    exact ⟨i, info, hi, hinfo, rfl⟩

theorem Resolves.preserved {key : Str} {entry : ReversedThunk} (h : db.Resolves key entry)
    (hp : Preserved db db') : db'.Resolves key entry := by
  obtain ⟨i, info, hi, hget, rfl⟩ := h
  obtain ⟨hi', info', hget₀, hget', hread⟩ := hp.reversed key i hi
  obtain rfl : info = info' := Option.some.inj (hget.symm.trans hget₀)
  exact ⟨i, info, hi', hget', hread⟩

/-- Only C strings are indexed. -/
theorem cString_of_reversedThunk (h : db.FirstKept) {k : Str} {i : Nat}
    (hk : db.reversedThunk k = some i) : cString k = k := by
  rw [h.reversed] at hk
  obtain ⟨info, -, hmem⟩ := owns_of_firstOwner hk
  rcases List.mem_cons.mp hmem with rfl | hmem
  · exact cString_cString _
  · obtain ⟨p, -, rfl⟩ := List.mem_map.mp hmem
    exact cString_cString _

/-- Of the items that a pack adds, those that own a key all say the same, unless it is
taken already. -/
def Unambiguous (db : ThunkDatabase) (items : List ReversedThunk) : Prop :=
  (db.newReversed items).Pairwise fun a b =>
    db.reversedThunk (cString b.name) = none → cString b.name ∈ a.truncate.names →
      a.truncate = b.truncate

/-- A reversed entry of a pack resolves once the pack is loaded, unless its key is taken. -/
theorem loadPack_resolves (h : db.Valid) (hfirst : db.FirstKept) {pack : Pack}
    {doc : Json.Object} (hjson : pack.json = some (.object doc))
    (hunambiguous : db.Unambiguous (reversedItems doc)) (hitem : item ∈ reversedItems doc)
    (hfree : db.reversedThunk (cString item.name) = none) :
    (db.loadPack pack).2.Resolves (cString item.name) item.truncate := by
  have hnew : item ∈ db.newReversed (reversedItems doc) := by
    refine List.mem_filter.mpr ⟨hitem, ?_⟩
    cases hmap : db.reversedThunkMap item.name with
    | none => rfl
    | some i =>
        have hname := cString_of_reversedThunk hfirst hmap
        rw [hname, reversedThunk, hmap] at hfree
        cases hfree
  obtain ⟨pre, post, hsplit⟩ := List.append_of_mem hnew
  have hentries := loadPack_reversedEntries h hjson
  rw [hsplit, List.map_append, List.map_cons] at hentries
  rw [Unambiguous, hsplit, List.pairwise_append] at hunambiguous
  have hpre : ∀ a ∈ pre.map ReversedThunk.truncate, cString item.name ∈ a.names →
      a = item.truncate := by
    rintro _ ha hk
    obtain ⟨b, hb, rfl⟩ := List.mem_map.mp ha
    exact hunambiguous.2.2 b hb item List.mem_cons_self hfree hk
  have hkey : cString item.name ∈ item.truncate.names := List.mem_cons_self
  obtain ⟨i, entry, hi, hget, rfl⟩ :
      ∃ i entry, firstOwner ReversedThunk.names (pre.map ReversedThunk.truncate ++ item.truncate ::
          post.map ReversedThunk.truncate) (cString item.name) = some i ∧
        (pre.map ReversedThunk.truncate ++ item.truncate ::
          post.map ReversedThunk.truncate)[i]? = some entry ∧ id entry = id item.truncate :=
    exists_firstOwner id hkey hpre
  rw [hfirst.reversedThunk_eq] at hfree
  have hfirst' : (db.loadPack pack).2.FirstKept := firstKept_rebuildIndexes _
  refine resolves_iff.mpr ⟨db.reversedEntries.length + i, ?_, ?_⟩
  · rw [hfirst'.reversedThunk_eq, hentries, firstOwner_append_of_none hfree, hi, Option.map_some]
  · rw [hentries, List.getElem?_append_right (Nat.le_add_right _ _), Nat.add_sub_cancel_left]
    exact hget

end ThunkDatabase

end Lorelei.DLCall
