import Lorelei.Support.ConfigEntries

/-!
# The indices of a configuration

A `ConfigFile` keeps its sections, and a section its keys, in a vector and in a map of
positions. Loading changes them by entering a section, by assigning to a key, and by clearing
the object (`Edit`), whatever files it goes through and however it ends (`bare_load`).

What the edits since the object was cleared say is a journal of its own (`Journal`). After any
edits the maps lead to the positions and nowhere else, sections and keys stand in the order in
which the journal names them first, and a lookup gives the value the journal has last
(`calls_tidy`). A load that gets stuck leaves no object; what it has done up to then are edits,
too.
-/

namespace Lorelei.Support

/-! ## Looking up -/

/-- `ConfigFile::Section::getString`. -/
def Section.getString (section_ : Section) (key : Str) : Option Str :=
  match section_.keyIndex.lookup key with
  | none => none
  | some i => (section_.keyValues[i]?).map Prod.snd

/-- `ConfigFile::get`. -/
def ConfigFile.get (c : ConfigFile) (section_ : Str) : Option Section :=
  match c.sectionIndex.lookup section_ with
  | none => none
  | some i => c.sections[i]?

namespace ConfigFile

open LastNamed FirstOwner

variable {fs : FileSystem} {file : Str} {lineNum : Nat} {line : Str} {lines : List Str}
  {fuel : Nat} {c c' : ConfigFile}

/-! ## Edits -/

/-- What is done to the sections of an object. -/
inductive Edit where
  | enter (name : Str)
  | assign (key value : Str)
  | clear
deriving DecidableEq, Repr

def edit (c : ConfigFile) : Edit → ConfigFile
  | .enter name => c.enterSection name
  | .assign key value => c.record key value
  | .clear => c.clear

def replay (c : ConfigFile) (edits : List Edit) : ConfigFile := edits.foldl edit c

/-- The edits of a line, given those of `load`. -/
def lineEdits (fs : FileSystem) (loadEdits : Str → ConfigFile → List Edit) (c : ConfigFile) :
    Except Str Directive → List Edit
  | .ok (.header name) => [.enter name]
  | .ok (.keyValue key value) => [.assign key value]
  | .ok (.includes f) =>
      let path := joinPath (c.baseDirStack.headD ['.']) f
      if fs.pathExists path then loadEdits path c else []
  | _ => []

/-- The edits of `parseLines`, given `load` and its edits. -/
def linesEdits (fs : FileSystem) (load : Str → ConfigFile → Run (ParseResult × ConfigFile))
    (loadEdits : Str → ConfigFile → List Edit) (file : Str) :
    (lineNum : Nat) → List Str → ConfigFile → List Edit
  | _, [], _ => []
  | lineNum, line :: lines, c =>
      lineEdits fs loadEdits c (directive line) ++
        match parseLine fs load line file (lineNum + 1) c with
        | .ok (result, c) =>
            if result.success then linesEdits fs load loadEdits file (lineNum + 1) lines c
            else
              match c.popBaseDir with
              | .ok _ => [.clear]
              | .error _ => []
        | .error _ => []

/-- The edits of `load`. -/
def loadEdits (fs : FileSystem) : (fuel : Nat) → Str → ConfigFile → List Edit
  | 0, _, _ => []
  | fuel + 1, file, c =>
      match fs.openFile file with
      | none => []
      | some text =>
          linesEdits fs (load fs fuel) (loadEdits fs fuel) file 0 (getlines text)
            (c.pushBaseDir (baseDirOf file))

/-- What is called on an object from outside. -/
inductive Call where
  | load (fs : FileSystem) (file : Str)
  | clear

/-- Calls one after the other. -/
def runCalls (fuel : Nat) : List Call → ConfigFile → Run ConfigFile
  | [], c => .ok c
  | .load fs file :: calls, c => do
      let (_, c) ← load fs fuel file c
      runCalls fuel calls c
  | .clear :: calls, c => runCalls fuel calls c.clear

/-- The edits of the calls, up to where a load gets stuck. -/
def callsEdits (fuel : Nat) : List Call → ConfigFile → List Edit
  | [], _ => []
  | .load fs file :: calls, c =>
      loadEdits fs fuel file c ++
        match load fs fuel file c with
        | .ok (_, c) => callsEdits fuel calls c
        | .error _ => []
  | .clear :: calls, c => .clear :: callsEdits fuel calls c.clear

/-! ## Loads are edits -/

/-- An object without the directories of the files it is in. -/
def bare (c : ConfigFile) : ConfigFile := { c with baseDirStack := [] }

theorem bare_edit (c : ConfigFile) (e : Edit) : (c.edit e).bare = c.bare.edit e := by
  cases e with
  | enter name =>
      show (c.enterSection name).bare = c.bare.enterSection name
      have hindex : c.bare.sectionIndex = c.sectionIndex := rfl
      rw [enterSection, enterSection, hindex]
      cases c.sectionIndex.lookup name <;> rfl
  | assign key value => rfl
  | clear => rfl

theorem bare_replay (c : ConfigFile) (edits : List Edit) :
    (c.replay edits).bare = c.bare.replay edits := by
  induction edits generalizing c with
  | nil => rfl
  | cons e edits ih =>
      show ((c.edit e).replay edits).bare = (c.bare.edit e).replay edits
      rw [ih, bare_edit]

theorem replay_append (c : ConfigFile) (es es' : List Edit) :
    c.replay (es ++ es') = (c.replay es).replay es' := List.foldl_append

theorem bind_eq_ok {α β : Type} {x : Run α} {f : α → Run β} {b : β} :
    x >>= f = .ok b ↔ ∃ a, x = .ok a ∧ f a = .ok b := by
  cases x with
  | error stuck => exact ⟨nofun, nofun⟩
  | ok a =>
      constructor
      · exact fun h => ⟨a, rfl, h⟩
      · rintro ⟨a', heq, h⟩
        cases heq
        exact h

theorem bare_popBaseDir (h : c.popBaseDir = .ok c') : c'.bare = c.bare := by
  rw [popBaseDir] at h
  split at h
  · cases h
  · cases h
    rfl

section Lines

variable {load : Str → ConfigFile → Run (ParseResult × ConfigFile)}
  {edits : Str → ConfigFile → List Edit}

theorem bare_parseLine
    (hload : ∀ path c r c', load path c = .ok (r, c') → c'.bare = c.bare.replay (edits path c))
    {r : ParseResult} (h : parseLine fs load line file lineNum c = .ok (r, c')) :
    c'.bare = c.bare.replay (lineEdits fs edits c (directive line)) := by
  rw [parseLine_eq] at h
  cases hd : directive line with
  | error msg =>
      rw [hd] at h
      cases h
      rfl
  | ok d =>
      rw [hd] at h
      cases d with
      | blank =>
          cases h
          rfl
      | header name =>
          cases h
          exact bare_edit c (.enter name)
      | keyValue key value =>
          cases h
          rfl
      | includes f =>
          rw [lineEdits]
          dsimp only [perform] at h ⊢
          split at h
          next hpath =>
            rw [if_pos hpath]
            exact hload _ _ _ _ h
          next hpath =>
            rw [if_neg hpath]
            cases h
            rfl

theorem bare_parseLines
    (hload : ∀ path c r c', load path c = .ok (r, c') → c'.bare = c.bare.replay (edits path c))
    {r : ParseResult} (h : parseLines fs load file lineNum lines c = .ok (r, c')) :
    c'.bare = c.bare.replay (linesEdits fs load edits file lineNum lines c) := by
  induction lines generalizing lineNum c with
  | nil =>
      rw [parseLines] at h
      obtain ⟨c₁, hpop, heq⟩ := bind_eq_ok.mp h
      cases heq
      exact bare_popBaseDir hpop
  | cons line lines ih =>
      rw [parseLines] at h
      obtain ⟨⟨result, c₁⟩, hline, h⟩ := bind_eq_ok.mp h
      have hedits := bare_parseLine hload hline
      rw [linesEdits, hline, replay_append, ← hedits]
      dsimp only at h ⊢
      cases hsuccess : result.success with
      | true =>
          rw [hsuccess, if_pos rfl] at h
          exact ih h
      | false =>
          rw [hsuccess, if_neg Bool.false_ne_true] at h
          obtain ⟨c₂, hpop, heq⟩ := bind_eq_ok.mp h
          rw [hpop]
          cases heq
          rfl

end Lines

/-- But for the directories, what a load leaves of an object is what its edits make of it. -/
theorem bare_load {r : ParseResult} (h : load fs fuel file c = .ok (r, c')) :
    c'.bare = c.bare.replay (loadEdits fs fuel file c) := by
  induction fuel generalizing file c r c' with
  | zero => cases h
  | succ fuel ih =>
      rw [load] at h
      rw [loadEdits]
      cases hopen : fs.openFile file with
      | none =>
          rw [hopen] at h
          cases h
          rfl
      | some text =>
          rw [hopen] at h
          exact bare_parseLines (fun path c r c' => ih) h

theorem bare_runCalls {calls : List Call} (h : runCalls fuel calls c = .ok c') :
    c'.bare = c.bare.replay (callsEdits fuel calls c) := by
  induction calls generalizing c with
  | nil =>
      cases h
      rfl
  | cons call calls ih =>
      cases call with
      | load fs file =>
          obtain ⟨⟨r, c₁⟩, hload, h⟩ := bind_eq_ok.mp h
          rw [callsEdits, hload, replay_append, ← bare_load hload]
          exact ih h
      | clear => exact ih h

/-! ## The journal -/

/-- What has been done since the object was cleared: the sections that were entered, and what was
assigned to the keys of which section. -/
structure Journal where
  current : Str
  entered : List Str
  assigned : List (Str × Str × Str)
deriving DecidableEq, Repr

namespace Journal

def empty : Journal := ⟨globalSectionName, [], []⟩

def add (j : Journal) : Edit → Journal
  | .enter name => { j with current := name, entered := j.entered ++ [name] }
  | .assign key value => { j with assigned := j.assigned ++ [(j.current, key, value)] }
  | .clear => empty

def ofEdits (edits : List Edit) : Journal := edits.foldl add empty

/-- The keys and values of a section, in order. -/
def written (j : Journal) (name : Str) : List (Str × Str) :=
  (j.assigned.filter fun a => a.1 = name).map Prod.snd

theorem written_assign (j : Journal) (key value : Str) :
    (j.add (.assign key value)).written =
      fun name => j.written name ++ if j.current = name then [(key, value)] else [] := by
  funext name
  rw [written, add, List.filter_append, List.map_append, written]
  by_cases hname : j.current = name
  · rw [if_pos hname, List.filter_singleton, decide_eq_true hname]
    rfl
  · rw [if_neg hname, List.filter_singleton, decide_eq_false hname]
    rfl

end Journal

/-! ## The indices -/

/-- The maps lead to the positions in the vectors, and nowhere else. -/
structure Indexed (c : ConfigFile) : Prop where
  sections : ∀ name i, c.sectionIndex.lookup name = some i ↔
    (c.sections[i]?).map Section.name = some name
  global : (c.sections[0]?).map Section.name = some globalSectionName
  current : c.currentSectionIndex < c.sections.length
  keys : ∀ section_ ∈ c.sections, ∀ key i, section_.keyIndex.lookup key = some i ↔
    (section_.keyValues[i]?).map Prod.fst = some key
  keys_nodup : ∀ section_ ∈ c.sections, (section_.keyValues.map Prod.fst).Nodup

/-- Sections and keys stand where the journal names them first, and are found with what it has
last. -/
structure Follows (c : ConfigFile) (j : Journal) : Prop where
  current : c.currentName = some j.current
  sections : c.sections.map Section.name = (globalSectionName :: j.entered).eraseDups
  get : ∀ name section_, c.get name = some section_ ↔
    section_ ∈ c.sections ∧ section_.name = name
  keys : ∀ section_ ∈ c.sections, section_.keyValues.map Prod.fst =
    ((j.written section_.name).map Prod.fst).eraseDups
  values : ∀ section_ ∈ c.sections, ∀ key, section_.getString key =
    (lastNamed Prod.fst (j.written section_.name) key).map Prod.snd

/-- The indices are in order, and the object holds what the journal says. -/
structure Tidy (c : ConfigFile) (j : Journal) : Prop where
  indexed : Indexed c
  follows : Follows c j

/-- The invariant of edits. -/
structure Tracks (c : ConfigFile) (j : Journal) : Prop
    extends Describes c j.current j.written where
  names : c.sections.map Section.name = upsertAll id (globalSectionName :: j.entered)
  index : ∀ name, c.sectionIndex.lookup name =
    firstOwner (fun name => [name]) (c.sections.map Section.name) name

variable {j : Journal}

theorem tracks_fresh : Tracks fresh .empty := by
  refine ⟨describes_fresh, rfl, fun name => ?_⟩
  show [(globalSectionName, 0)].lookup name = _
  rw [List.lookup_cons]
  by_cases hname : name = globalSectionName
  · subst hname
    rfl
  · rw [beq_eq_false_iff_ne.mpr hname]
    show none = firstOwner _ [globalSectionName] name
    simp [firstOwner, List.findIdx?_cons, hname]

/-- Entering a section puts its name among the names, unless it is there. -/
theorem names_enterSection {name : Str} (h : c.sectionIndex.lookup name =
    firstOwner (fun name => [name]) (c.sections.map Section.name) name) :
    (c.enterSection name).sections.map Section.name =
      upsert id (c.sections.map Section.name) name := by
  have hindex : firstOwner (fun name => [id name]) (c.sections.map Section.name) (id name) =
      c.sectionIndex.lookup name := h.symm
  rw [enterSection, upsert, hindex]
  cases hi : c.sectionIndex.lookup name with
  | none => exact List.map_append
  | some i =>
      rw [hi] at h
      obtain ⟨name', hname', howns⟩ := owns_of_firstOwner h.symm
      obtain ⟨hlt, hget⟩ := List.getElem?_eq_some_iff.mp hname'
      obtain rfl := List.mem_singleton.mp howns
      have hset := List.set_getElem_self hlt
      rw [hget] at hset
      exact hset.symm

theorem Tracks.enter (h : Tracks c j) (name : Str) :
    Tracks (c.enterSection name) (j.add (.enter name)) := by
  have hnames := names_enterSection (h.index name)
  refine ⟨h.toDescribes.enterSection name, ?_, fun name' => ?_⟩
  · rw [hnames, h.names, ← upsertAll_append_singleton]
    rfl
  · have hfirst : firstOwner (fun name => [name]) (upsert id (c.sections.map Section.name) name)
        name' = _ := firstOwner_upsert
    rw [hnames, hfirst, List.length_map]
    show _ = (firstOwner (fun name => [name]) (c.sections.map Section.name) name').or
      (if name' = name then some c.sections.length else none)
    rw [← h.index name', enterSection]
    have hindex := h.index name
    cases hi : c.sectionIndex.lookup name with
    | some i =>
        by_cases hsame : name' = name
        · rw [hsame, hi]
          rfl
        · rw [if_neg hsame, Option.or_none]
    | none =>
        show ((name, c.sections.length) :: c.sectionIndex).lookup name' = _
        rw [List.lookup_cons]
        by_cases hsame : name' = name
        · rw [hsame, hi, beq_self_eq_true, if_pos rfl]
          rfl
        · rw [beq_eq_false_iff_ne.mpr hsame, if_neg hsame, Option.or_none]

theorem Tracks.assign (h : Tracks c j) (key value : Str) :
    Tracks (c.record key value) (j.add (.assign key value)) := by
  have hnames : (c.record key value).sections.map Section.name = c.sections.map Section.name := by
    refine List.ext_getElem? fun i => ?_
    rw [List.getElem?_map, List.getElem?_map, map_name_record]
  refine ⟨?_, ?_, fun name => ?_⟩
  · rw [Journal.written_assign]
    exact h.toDescribes.record key value
  · rw [hnames]
    exact h.names
  · rw [hnames]
    exact h.index name

theorem Tracks.edit (h : Tracks c j) (e : Edit) : Tracks (c.edit e) (j.add e) := by
  cases e with
  | enter name => exact h.enter name
  | assign key value => exact h.assign key value
  | clear => exact tracks_fresh

theorem tracks_replay (edits : List Edit) : Tracks (fresh.replay edits) (.ofEdits edits) := by
  induction edits using List.reverseRecOn with
  | nil => exact tracks_fresh
  | append_singleton edits e ih =>
      rw [replay_append, Journal.ofEdits, List.foldl_append]
      exact ih.edit e

/-! ## What the invariant says -/

theorem Tracks.nodup_names (h : Tracks c j) : (c.sections.map Section.name).Nodup := by
  have hnodup : ((upsertAll id (globalSectionName :: j.entered)).map id).Nodup := mem_upsertAll.1
  rwa [List.map_id, ← h.names] at hnodup

theorem Tracks.lookup_iff (h : Tracks c j) (name : Str) (i : Nat) :
    c.sectionIndex.lookup name = some i ↔ (c.sections[i]?).map Section.name = some name := by
  rw [h.index, firstOwner_eq_some_iff_of_nodup h.nodup_names, List.getElem?_map]

theorem Tracks.get_iff (h : Tracks c j) (name : Str) (section_ : Section) :
    c.get name = some section_ ↔ section_ ∈ c.sections ∧ section_.name = name := by
  constructor
  · intro hget
    rw [get] at hget
    split at hget
    · cases hget
    next i hi =>
      refine ⟨List.mem_of_getElem? hget, ?_⟩
      have hname := (h.lookup_iff name i).mp hi
      rw [hget] at hname
      exact Option.some.inj hname
  · rintro ⟨hmem, rfl⟩
    obtain ⟨i, hi⟩ := List.mem_iff_getElem?.mp hmem
    have hlookup : c.sectionIndex.lookup section_.name = some i := by
      rw [h.lookup_iff, hi]
      rfl
    rw [get, hlookup]
    exact hi

/-- What is in a section is what has been written to it. -/
theorem Tracks.keyValues_eq (h : Tracks c j) {section_ : Section} (hmem : section_ ∈ c.sections) :
    section_.keyValues = upsertAll Prod.fst (j.written section_.name) := by
  have hget := (h.get_iff section_.name section_).mpr ⟨hmem, rfl⟩
  rw [get] at hget
  split at hget
  · cases hget
  next i hi =>
    have hentries := h.entries section_.name
    rwa [entriesOf, hi, Option.bind_some, hget] at hentries

theorem Tracks.isIndexed (h : Tracks c j) : Indexed c where
  sections := h.lookup_iff
  global := by
    have hfirst : (c.sections.map Section.name)[0]? = some globalSectionName := by
      rw [h.names, ← List.map_id (upsertAll _ _), map_name_upsertAll, List.map_id,
        List.eraseDups_cons]
      rfl
    rwa [List.getElem?_map] at hfirst
  current := h.toAt.lt_of_lookup h.found
  keys section_ hmem key i := by
    have hnodup : (section_.keyValues.map Prod.fst).Nodup := by
      rw [h.keyValues_eq hmem]
      exact mem_upsertAll.1
    have hkeyed : section_.keyIndex.lookup key =
        firstOwner (fun key => [key]) (section_.keyValues.map Prod.fst) key := by
      rw [h.keyed section_ hmem key, firstOwner_map]
      rfl
    rw [hkeyed, firstOwner_eq_some_iff_of_nodup hnodup, List.getElem?_map]
  keys_nodup section_ hmem := by
    rw [h.keyValues_eq hmem]
    exact mem_upsertAll.1

theorem Tracks.follows (h : Tracks c j) : Follows c j where
  current := h.current
  sections := by
    rw [h.names, ← List.map_id (upsertAll _ _), map_name_upsertAll, List.map_id]
  get := h.get_iff
  keys section_ hmem := by
    rw [h.keyValues_eq hmem]
    exact map_name_upsertAll
  values section_ hmem key := by
    have hfind : section_.getString key =
        (find (fun kv => [kv.1]) section_.keyValues key).map Prod.snd := by
      rw [← firstOwner_bind_getElem?, ← h.keyed section_ hmem key, Section.getString]
      cases section_.keyIndex.lookup key <;> rfl
    rw [hfind, h.keyValues_eq hmem, find]
    simp only [List.mem_singleton, @eq_comm _ key]
    rw [find?_upsertAll]

theorem Tracks.of_bare (h : Tracks c.bare j) : Tracks c j := by
  refine ⟨⟨h.toAt.withStack c.baseDirStack, h.found, h.keyed, h.entries⟩, h.names, h.index⟩

theorem tidy_of_tracks (h : Tracks c j) : Tidy c j := ⟨h.isIndexed, h.follows⟩

/-- In every state that calls lead to, and after every part of their edits, the indices are in
order and the object holds what the journal says. -/
theorem calls_tidy (fuel : Nat) (calls : List Call) :
    (∀ edits, edits <+: callsEdits fuel calls fresh →
      Tidy (fresh.replay edits) (.ofEdits edits)) ∧
    ∀ c, runCalls fuel calls fresh = .ok c →
      Tidy c (.ofEdits (callsEdits fuel calls fresh)) := by
  constructor
  · intro edits _
    exact tidy_of_tracks (tracks_replay edits)
  · intro c hrun
    refine tidy_of_tracks (Tracks.of_bare ?_)
    rw [bare_runCalls hrun]
    exact tracks_replay _

/-- Loading a file twice writes its values again, and the next file goes on in its section. -/
theorem calls_tidy_netAndHost :
    Tidy
      { sections := [⟨globalSectionName, [], []⟩,
          ⟨"net".toList, [("port".toList, "80".toList), ("name".toList, "a".toList)],
            [("name".toList, 1), ("port".toList, 0)]⟩]
        sectionIndex := [("net".toList, 1), (globalSectionName, 0)]
        currentSectionIndex := 1
        baseDirStack := [] }
      { current := "net".toList
        entered := ["net".toList, "net".toList]
        assigned := [("net".toList, "port".toList, "80".toList),
          ("net".toList, "port".toList, "80".toList),
          ("net".toList, "name".toList, "a".toList)] } :=
  (calls_tidy 1 [.load netAndHost "net".toList, .clear, .load netAndHost "net".toList,
    .load netAndHost "net".toList, .load netAndHost "host".toList]).2 _ rfl

end ConfigFile

end Lorelei.Support
