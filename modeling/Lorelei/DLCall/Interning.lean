import Lorelei.DLCall.ThunkDatabase

/-!
# What interning leaves alone

Strings and lists are only ever appended to the arenas, so whatever an entry points at
stays as it is (`Interned`).  An item that is interned reads back as it was, up to the
first NUL of each of its strings.
-/

namespace Lorelei.DLCall

open Support FirstOwner

/-- An item as C code reads it. -/
def ForwardThunk.truncate (item : ForwardThunk) : ForwardThunk where
  name := cString item.name
  aliases := item.aliases.map cString
  guestThunk := cString item.guestThunk
  hostThunk := cString item.hostThunk
  hostLibrary := cString item.hostLibrary

def ReversedThunk.truncate (item : ReversedThunk) : ReversedThunk where
  name := cString item.name
  aliases := item.aliases.map cString
  fileName := cString item.fileName
  thunks := item.thunks.map cString

namespace ThunkDatabase

variable {db db' db'' : ThunkDatabase}

/-- The strings of all lists are there. -/
def ListsValid (db : ThunkDatabase) : Prop :=
  ∀ l ∈ db.listArena, ∀ p ∈ l, p < db.stringArena.length

/-- The arenas have grown, and nothing else has changed. -/
structure Interned (db db' : ThunkDatabase) : Prop where
  strings : db.stringArena <+: db'.stringArena
  lists : db.listArena <+: db'.listArena
  valid : db.ListsValid → db'.ListsValid
  forwardThunks : db'.forwardThunks = db.forwardThunks
  reversedThunks : db'.reversedThunks = db.reversedThunks
  forwardThunkMap : db'.forwardThunkMap = db.forwardThunkMap
  reversedThunkMap : db'.reversedThunkMap = db.reversedThunkMap
  forwardIndex : db'.forwardIndex = db.forwardIndex

theorem Interned.refl (db : ThunkDatabase) : Interned db db :=
  ⟨List.prefix_rfl, List.prefix_rfl, id, rfl, rfl, rfl, rfl, rfl⟩

theorem Interned.trans (h : Interned db db') (h' : Interned db' db'') : Interned db db'' where
  strings := h.strings.trans h'.strings
  lists := h.lists.trans h'.lists
  valid := h'.valid ∘ h.valid
  forwardThunks := h'.forwardThunks.trans h.forwardThunks
  reversedThunks := h'.reversedThunks.trans h.reversedThunks
  forwardThunkMap := h'.forwardThunkMap.trans h.forwardThunkMap
  reversedThunkMap := h'.reversedThunkMap.trans h.reversedThunkMap
  forwardIndex := h'.forwardIndex.trans h.forwardIndex

/-! ## Reading through growing arenas -/

theorem getD_of_isPrefix {α : Type*} {l l' : List α} {p : Nat} (d : α) (h : l <+: l')
    (hp : p < l.length) : l'.getD p d = l.getD p d := by
  obtain ⟨more, rfl⟩ := h
  rw [List.getD_eq_getElem?_getD, List.getD_eq_getElem?_getD, List.getElem?_append_left hp]

theorem string_congr {p : Nat} (h : db.stringArena <+: db'.stringArena)
    (hp : p < db.stringArena.length) : db'.string p = db.string p := by
  rw [string, string, getD_of_isPrefix [] h hp]

theorem strings_congr {p count : Nat} (hstrings : db.stringArena <+: db'.stringArena)
    (hlists : db.listArena <+: db'.listArena) (hvalid : db.ListsValid)
    (hp : p < db.listArena.length) : db'.strings p count = db.strings p count := by
  rw [strings, strings, getD_of_isPrefix [] hlists hp]
  apply List.map_congr_left
  intro q hq
  refine string_congr hstrings (hvalid _ ?_ q (List.mem_of_mem_take hq))
  rw [List.getD_eq_getElem?_getD, List.getElem?_eq_getElem hp]
  exact List.getElem_mem hp

/-! ## The interning functions -/

theorem intern_interned (db : ThunkDatabase) (s : Str) : Interned db (db.intern s).2 where
  strings := List.prefix_append _ _
  lists := List.prefix_rfl
  valid h l hl p hp := by
    have hlt := h l hl p hp
    simp only [intern, List.length_append, List.length_singleton]
    omega
  forwardThunks := rfl
  reversedThunks := rfl
  forwardThunkMap := rfl
  reversedThunkMap := rfl
  forwardIndex := rfl

theorem intern_lt (db : ThunkDatabase) (s : Str) :
    (db.intern s).1 < (db.intern s).2.stringArena.length := by
  simp [intern]

theorem string_intern (db : ThunkDatabase) (s : Str) :
    (db.intern s).2.string (db.intern s).1 = cString s := by
  simp [intern, string]

/-- The addresses of interned strings. -/
theorem internStrings_spec (db : ThunkDatabase) (strs : List Str) :
    Interned db (db.internStrings strs).2 ∧
      (∀ p ∈ (db.internStrings strs).1, p < (db.internStrings strs).2.stringArena.length) ∧
      (db.internStrings strs).1.map (db.internStrings strs).2.string = strs.map cString := by
  induction strs generalizing db with
  | nil => exact ⟨Interned.refl db, by simp [internStrings], rfl⟩
  | cons s strs ih =>
      obtain ⟨hrest, hlt, hread⟩ := ih (db.intern s).2
      have hfirst := intern_lt db s
      refine ⟨(intern_interned db s).trans hrest, ?_, ?_⟩
      · intro p hp
        rcases List.mem_cons.mp hp with rfl | hp
        · exact Nat.lt_of_lt_of_le hfirst hrest.strings.length_le
        · exact hlt p hp
      · have hstring : ((db.intern s).2.internStrings strs).2.string (db.intern s).1 = cString s :=
          (string_congr hrest.strings hfirst).trans (string_intern db s)
        exact congrArg₂ List.cons hstring hread

theorem internList_spec (db : ThunkDatabase) (strs : List Str) :
    Interned db (db.internList strs).2.2 ∧
      (db.internList strs).1 < (db.internList strs).2.2.listArena.length ∧
      (db.internList strs).2.2.strings (db.internList strs).1 (db.internList strs).2.1 =
        strs.map cString := by
  obtain ⟨hstrings, hlt, hread⟩ := internStrings_spec db strs
  have hlists : db.listArena <+: (db.internList strs).2.2.listArena :=
    hstrings.lists.trans (List.prefix_append _ _)
  refine ⟨⟨hstrings.strings, hlists, ?_, hstrings.forwardThunks, hstrings.reversedThunks,
    hstrings.forwardThunkMap, hstrings.reversedThunkMap, hstrings.forwardIndex⟩, ?_, ?_⟩
  · intro hvalid l hl p hp
    rcases List.mem_append.mp hl with hl | hl
    · exact hstrings.valid hvalid l hl p hp
    · rw [List.mem_singleton.mp hl] at hp
      exact hlt p hp
  · simp [internList]
  · simp only [internList, strings, List.getD_eq_getElem?_getD, List.getElem?_concat_length,
      Option.getD_some, List.take_length]
    exact hread

/-- An entry points into the arenas. -/
def WithinForward (db : ThunkDatabase) (info : CForwardThunkInfo) : Prop :=
  (∀ p ∈ [info.name, info.guestThunk, info.hostThunk, info.hostLibrary],
    p < db.stringArena.length) ∧ info.aliases < db.listArena.length

def WithinReversed (db : ThunkDatabase) (info : CReversedThunkInfo) : Prop :=
  (∀ p ∈ [info.name, info.fileName], p < db.stringArena.length) ∧
    ∀ p ∈ [info.aliases, info.thunks], p < db.listArena.length

theorem WithinForward.mono {info : CForwardThunkInfo} (h : db.WithinForward info)
    (hstrings : db.stringArena <+: db'.stringArena) (hlists : db.listArena <+: db'.listArena) :
    db'.WithinForward info :=
  ⟨fun p hp => Nat.lt_of_lt_of_le (h.1 p hp) hstrings.length_le,
    Nat.lt_of_lt_of_le h.2 hlists.length_le⟩

theorem WithinReversed.mono {info : CReversedThunkInfo} (h : db.WithinReversed info)
    (hstrings : db.stringArena <+: db'.stringArena) (hlists : db.listArena <+: db'.listArena) :
    db'.WithinReversed info :=
  ⟨fun p hp => Nat.lt_of_lt_of_le (h.1 p hp) hstrings.length_le,
    fun p hp => Nat.lt_of_lt_of_le (h.2 p hp) hlists.length_le⟩

/-- What an entry says does not change when the arenas grow. -/
theorem readForward_congr {info : CForwardThunkInfo} (h : db.WithinForward info)
    (hvalid : db.ListsValid) (hstrings : db.stringArena <+: db'.stringArena)
    (hlists : db.listArena <+: db'.listArena) : db'.readForward info = db.readForward info := by
  have hstring (p : Nat) (hp : p ∈ [info.name, info.guestThunk, info.hostThunk, info.hostLibrary]) :
      db'.string p = db.string p := string_congr hstrings (h.1 p hp)
  rw [readForward, readForward, hstring _ (by simp), hstring _ (by simp), hstring _ (by simp),
    hstring _ (by simp), strings_congr hstrings hlists hvalid h.2]

theorem readReversed_congr {info : CReversedThunkInfo} (h : db.WithinReversed info)
    (hvalid : db.ListsValid) (hstrings : db.stringArena <+: db'.stringArena)
    (hlists : db.listArena <+: db'.listArena) : db'.readReversed info = db.readReversed info := by
  have hstring (p : Nat) (hp : p ∈ [info.name, info.fileName]) : db'.string p = db.string p :=
    string_congr hstrings (h.1 p hp)
  have hlist (p count : Nat) (hp : p ∈ [info.aliases, info.thunks]) :
      db'.strings p count = db.strings p count :=
    strings_congr hstrings hlists hvalid (h.2 p hp)
  rw [readReversed, readReversed, hstring _ (by simp), hstring _ (by simp), hlist _ _ (by simp),
    hlist _ _ (by simp)]

theorem internForward_spec (db : ThunkDatabase) (item : ForwardThunk) (hvalid : db.ListsValid) :
    Interned db (db.internForward item).2 ∧
      (db.internForward item).2.WithinForward (db.internForward item).1 ∧
      (db.internForward item).2.readForward (db.internForward item).1 = item.truncate := by
  -- the database after each of the five steps
  let db₁ := (db.intern item.name).2
  let db₂ := (db₁.internList item.aliases).2.2
  let db₃ := (db₂.intern item.guestThunk).2
  let db₄ := (db₃.intern item.hostThunk).2
  have h₁ := intern_interned db item.name
  obtain ⟨h₂, hlist, hread⟩ := internList_spec db₁ item.aliases
  have h₃ := intern_interned db₂ item.guestThunk
  have h₄ := intern_interned db₃ item.hostThunk
  have h₅ := intern_interned db₄ item.hostLibrary
  have h₄₅ := h₄.trans h₅
  have h₃₅ := h₃.trans h₄₅
  have h₂₅ := h₂.trans h₃₅
  have hvalid₂ := h₂.valid (h₁.valid hvalid)
  refine ⟨h₁.trans h₂₅, ⟨?_, Nat.lt_of_lt_of_le hlist h₃₅.lists.length_le⟩, ?_⟩
  · simp only [List.forall_mem_cons, internForward]
    refine ⟨?_, ?_, ?_, intern_lt db₄ _, List.forall_mem_nil _⟩
    · exact Nat.lt_of_lt_of_le (intern_lt db _) h₂₅.strings.length_le
    · exact Nat.lt_of_lt_of_le (intern_lt db₂ _) h₄₅.strings.length_le
    · exact Nat.lt_of_lt_of_le (intern_lt db₃ _) h₅.strings.length_le
  · have hname := (string_congr h₂₅.strings (intern_lt db item.name)).trans (string_intern db _)
    have haliases := (strings_congr h₃₅.strings h₃₅.lists hvalid₂ hlist).trans hread
    have hguest := (string_congr h₄₅.strings (intern_lt db₂ item.guestThunk)).trans
      (string_intern db₂ _)
    have hhost := (string_congr h₅.strings (intern_lt db₃ item.hostThunk)).trans
      (string_intern db₃ _)
    have hlibrary := string_intern db₄ item.hostLibrary
    rw [ForwardThunk.truncate, ← hname, ← haliases, ← hguest, ← hhost, ← hlibrary]
    rfl

theorem internReversed_spec (db : ThunkDatabase) (item : ReversedThunk) (hvalid : db.ListsValid) :
    Interned db (db.internReversed item).2 ∧
      (db.internReversed item).2.WithinReversed (db.internReversed item).1 ∧
      (db.internReversed item).2.readReversed (db.internReversed item).1 = item.truncate := by
  let db₁ := (db.intern item.name).2
  let db₂ := (db₁.internList item.aliases).2.2
  let db₃ := (db₂.intern item.fileName).2
  have h₁ := intern_interned db item.name
  obtain ⟨h₂, hlist, hread⟩ := internList_spec db₁ item.aliases
  have h₃ := intern_interned db₂ item.fileName
  obtain ⟨h₄, hlist', hread'⟩ := internList_spec db₃ item.thunks
  have h₃₄ := h₃.trans h₄
  have h₂₄ := h₂.trans h₃₄
  have hvalid₂ := h₂.valid (h₁.valid hvalid)
  refine ⟨h₁.trans h₂₄, ⟨?_, ?_⟩, ?_⟩
  · simp only [List.forall_mem_cons, internReversed]
    refine ⟨?_, ?_, List.forall_mem_nil _⟩
    · exact Nat.lt_of_lt_of_le (intern_lt db _) h₂₄.strings.length_le
    · exact Nat.lt_of_lt_of_le (intern_lt db₂ _) h₄.strings.length_le
  · simp only [List.forall_mem_cons, internReversed]
    exact ⟨Nat.lt_of_lt_of_le hlist h₃₄.lists.length_le, hlist', List.forall_mem_nil _⟩
  · have hname := (string_congr h₂₄.strings (intern_lt db item.name)).trans (string_intern db _)
    have haliases := (strings_congr h₃₄.strings h₃₄.lists hvalid₂ hlist).trans hread
    have hfile := (string_congr h₄.strings (intern_lt db₂ item.fileName)).trans
      (string_intern db₂ _)
    rw [ReversedThunk.truncate, ← hname, ← haliases, ← hfile, ← hread']
    rfl

end ThunkDatabase

end Lorelei.DLCall
