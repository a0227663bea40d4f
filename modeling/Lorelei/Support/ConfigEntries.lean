import Lorelei.Lib.LastNamed
import Lorelei.Support.ConfigSections
import Lorelei.Support.ConfigShape

/-!
# Files of lines

Files whose lines are as they are meant, with the files that they include. Loading such a
file succeeds and records every key line, the last value of a key at the place of its first
one, exactly if no key begins with `include` (`loadsAsWritten_iff`).
-/

namespace Lorelei.Support.ConfigFile

open LastNamed FirstOwner

variable {fs : FileSystem} {file : Str} {lines all : List Line} {c c' : ConfigFile}

/-! ## Files -/

/-- A file, or lines of a file. -/
inductive Source where
  | file (path : Str)
  | lines (file : Str) (lines : List Line)

/-- The files consist of lines, included files exist and consist of lines, too, and reading
comes to an end. The lines of all files are listed in the order they are read. -/
inductive Shaped (fs : FileSystem) : Source → List Line → Prop
  | file {file text : Str} {lines all : List Line} :
      fs.openFile file = some text → getlines text = lines.map Line.text →
      Shaped fs (.lines file lines) all → Shaped fs (.file file) all
  | nil {file : Str} : Shaped fs (.lines file []) []
  | entry {file : Str} {line : Line} {lines all : List Line} :
      (∀ f, line.meaning ≠ .includes f) → Shaped fs (.lines file lines) all →
      Shaped fs (.lines file (line :: lines)) (line :: all)
  | included {file f : Str} {line : Line} {lines all all' : List Line} :
      line.meaning = .includes f → fs.pathExists (target file f) = true →
      Shaped fs (.file (target file f)) all → Shaped fs (.lines file lines) all' →
      Shaped fs (.lines file (line :: lines)) (line :: (all ++ all'))

/-- What the directives ask for, one after the other. -/
def applyAll (c : ConfigFile) (lines : List Line) : ConfigFile :=
  lines.foldl (fun c line => c.apply line.meaning) c

/-- The lines of a source as `runJob` is given them. -/
def Source.job (lineNum : Nat) : Source → Job
  | .file path => .file path
  | .lines file lines => .lines file lineNum (lines.map Line.text)

/-- The directories are not touched by entries. -/
theorem apply_withStack (c : ConfigFile) (d : Directive) (stack : List Str) :
    { c with baseDirStack := stack }.apply d = { c.apply d with baseDirStack := stack } := by
  cases d with
  | header name =>
      rw [apply, apply, enterSection, enterSection]
      cases c.sectionIndex.lookup name <;> rfl
  | _ => rfl

theorem applyAll_withStack (c : ConfigFile) (lines : List Line) (stack : List Str) :
    applyAll { c with baseDirStack := stack } lines =
      { applyAll c lines with baseDirStack := stack } := by
  induction lines generalizing c with
  | nil => rfl
  | cons line lines ih =>
      rw [applyAll, List.foldl_cons, apply_withStack]
      exact ih _

theorem baseDirStack_applyAll (c : ConfigFile) (lines : List Line) :
    (applyAll c lines).baseDirStack = c.baseDirStack := by
  induction lines generalizing c with
  | nil => rfl
  | cons line lines ih => exact (ih _).trans (baseDirStack_apply c line.meaning)

/-- Loading files whose lines are taken for what they are. -/
theorem run_of_classified {source : Source} (h : Shaped fs source all)
    (hall : ∀ line ∈ all, directive line.text = .ok line.meaning) (lineNum : Nat) :
    ∃ N, ∀ c, Ready (source.job lineNum) c → ∀ fuel ≥ N, runJob fs fuel (source.job lineNum) c =
      .ok (.ok, { applyAll c all with baseDirStack := stackAfter (source.job lineNum) c }) := by
  induction h generalizing lineNum with
  | @file file text lines all hopen hlines _ ih =>
      obtain ⟨N, hN⟩ := ih hall 0
      refine ⟨N + 1, fun c _ fuel hfuel => ?_⟩
      obtain ⟨fuel, rfl⟩ := Nat.exists_eq_add_of_le' ((Nat.le_add_left 1 N).trans hfuel)
      have hrun := hN (c.pushBaseDir (baseDirOf file)) rfl fuel (Nat.le_of_succ_le_succ hfuel)
      rw [Source.job, runJob, ← hlines] at hrun
      rw [Source.job, runJob, load, hopen]
      dsimp only
      rw [hrun, pushBaseDir, applyAll_withStack]
      rfl
  | nil =>
      refine ⟨0, fun c hready fuel _ => ?_⟩
      rw [Source.job, runJob, List.map_nil, parseLines, popBaseDir_of_ready hready]
      rfl
  | @entry file line lines all hni _ ih =>
      obtain ⟨hline, hrest⟩ := List.forall_mem_cons.mp hall
      obtain ⟨N, hN⟩ := ih hrest (lineNum + 1)
      refine ⟨N, fun c hready fuel hfuel => ?_⟩
      have hrun := hN (c.apply line.meaning) (by rwa [Source.job, Ready, baseDirStack_apply]) fuel
        hfuel
      rw [Source.job, runJob] at hrun ⊢
      rw [List.map_cons, parseLines_of_ok (parseLine_entry hline hni), hrun, stackAfter, stackAfter,
        baseDirStack_apply]
      rfl
  | @included file f line lines all all' hmeaning hexists _ _ ih ih' =>
      obtain ⟨hline, hrest⟩ := List.forall_mem_cons.mp hall
      obtain ⟨hfile, hlines⟩ := List.forall_mem_append.mp hrest
      obtain ⟨N, hN⟩ := ih hfile 0
      obtain ⟨M, hM⟩ := ih' hlines (lineNum + 1)
      refine ⟨max N M, fun c hready fuel hfuel => ?_⟩
      have hload := hN c trivial fuel ((Nat.le_max_left N M).trans hfuel)
      have hstack : { applyAll c all with baseDirStack := c.baseDirStack } = applyAll c all := by
        rw [← baseDirStack_applyAll c all]
      rw [Source.job, runJob, stackAfter, hstack] at hload
      have hrun := hM (applyAll c all) (by rwa [Source.job, Ready, baseDirStack_applyAll]) fuel
        ((Nat.le_max_right N M).trans hfuel)
      have hparse : parseLine fs (load fs fuel) line.text file (lineNum + 1) c =
          load fs fuel (target file f) c := parseLine_includes (hmeaning ▸ hline) hexists hready
      rw [hload] at hparse
      rw [Source.job, runJob] at hrun ⊢
      rw [List.map_cons, parseLines_of_ok hparse, hrun, stackAfter, stackAfter,
        baseDirStack_applyAll]
      have hsame : applyAll c (line :: (all ++ all')) = applyAll (applyAll c all) all' := by
        rw [applyAll, List.foldl_cons, hmeaning, List.foldl_append]
        rfl
      rw [hsame]

/-! ## Entries -/

/-- The entries of a section, as `get` finds it. -/
def entriesOf (c : ConfigFile) (name : Str) : List (Str × Str) :=
  (((c.sectionIndex.lookup name).bind (c.sections[·]?)).map Section.keyValues).getD []

/-- The key lines of a section, with their values; `current` is the section in front. -/
def keysIn (name : Str) : (current : Str) → List Line → List (Str × Str)
  | _, [] => []
  | current, line :: lines =>
      match line.meaning with
      | .header next => keysIn name next lines
      | .keyValue key value =>
          (if current = name then [(key, value)] else []) ++ keysIn name current lines
      | _ => keysIn name current lines

/-- The section behind some lines. -/
def sectionAfter : (current : Str) → List Line → Str
  | current, [] => current
  | current, line :: lines =>
      match line.meaning with
      | .header next => sectionAfter next lines
      | _ => sectionAfter current lines

/-- Each key is there once, where it has come first, with the value that has come last. -/
structure LastAtFirst (written entries : List (Str × Str)) : Prop where
  keys : entries.map Prod.fst = (written.map Prod.fst).eraseDups
  values : ∀ entry, entry ∈ entries ↔ Survives Prod.fst written entry

theorem lastAtFirst_upsertAll (written : List (Str × Str)) :
    LastAtFirst written (upsertAll Prod.fst written) :=
  ⟨map_name_upsertAll, mem_upsertAll.2⟩

/-- The index of a section leads to its entries. -/
def Keyed (section_ : Section) : Prop :=
  ∀ key, section_.keyIndex.lookup key = firstOwner (fun kv => [kv.1]) section_.keyValues key

theorem keyValues_addKeyValue {section_ : Section} (h : Keyed section_) (key value : Str) :
    (section_.addKeyValue key value).keyValues = upsert Prod.fst section_.keyValues (key, value) ∧
      Keyed (section_.addKeyValue key value) := by
  have hkey := h key
  rw [Section.addKeyValue]
  split
  next hnone =>
    rw [hnone] at hkey
    have hupsert : upsert Prod.fst section_.keyValues (key, value) =
        section_.keyValues ++ [(key, value)] := by
      rw [upsert, ← hkey]
    refine ⟨hupsert.symm, fun key' => ?_⟩
    dsimp only
    rw [← hupsert, firstOwner_upsert, List.lookup_cons]
    by_cases hsame : key' = key
    · rw [hsame, beq_self_eq_true, ← hkey, if_pos rfl]
      rfl
    · rw [beq_eq_false_iff_ne.mpr hsame, if_neg hsame, Option.or_none]
      exact h key'
  next i hi =>
    rw [hi] at hkey
    obtain ⟨kv, hkv, howns⟩ := owns_of_firstOwner hkey.symm
    have hmodify : section_.keyValues.modify i (fun kv => (kv.1, value)) =
        upsert Prod.fst section_.keyValues (key, value) := by
      rw [upsert, ← hkey, List.modify_eq_set_getElem?, hkv]
      show section_.keyValues.set i (kv.1, value) = _
      rw [← List.mem_singleton.mp howns]
    refine ⟨hmodify, fun key' => ?_⟩
    dsimp only
    rw [hmodify, firstOwner_upsert]
    by_cases hsame : key' = key
    · rw [hsame, ← hkey, hi]
      rfl
    · rw [if_neg hsame, Option.or_none]
      exact h key'

/-- What the object holds: the name of the current section, and what has been written into
each section. -/
structure Describes (c : ConfigFile) (section_ : Str) (written : Str → List (Str × Str)) : Prop
    extends At c section_ where
  found : c.sectionIndex.lookup section_ = some c.currentSectionIndex
  keyed : ∀ s ∈ c.sections, Keyed s
  entries : ∀ name, c.entriesOf name = upsertAll Prod.fst (written name)

variable {current name : Str} {written : Str → List (Str × Str)}

theorem describes_fresh : Describes fresh globalSectionName fun _ => [] := by
  refine ⟨at_fresh, rfl, fun s hs => ?_, fun name => ?_⟩
  · rw [List.mem_singleton.mp hs]
    exact fun _ => rfl
  · show entriesOf fresh name = []
    rw [entriesOf]
    cases hi : fresh.sectionIndex.lookup name with
    | none => rfl
    | some i =>
        have hname := at_fresh.indexed name i hi
        cases i with
        | zero => rfl
        | succ i => exact nomatch hname

/-- Indices of sections are within bounds. -/
theorem At.lt_of_lookup (h : At c current) {i : Nat} (hi : c.sectionIndex.lookup name = some i) :
    i < c.sections.length := by
  have hname := h.indexed name i hi
  by_contra hge
  rw [List.getElem?_eq_none (Nat.not_lt.mp hge)] at hname
  exact nomatch hname

/-- A section that is entered for the first time is empty, as if it had been there before. -/
theorem entriesOf_enterSection (h : At c current) (name next : Str) :
    entriesOf (c.enterSection next) name = entriesOf c name := by
  rw [ConfigFile.enterSection]
  split
  next => rfl
  next hnone =>
    rw [entriesOf, entriesOf, List.lookup_cons]
    by_cases hsame : name = next
    · rw [hsame, beq_self_eq_true, hnone]
      dsimp only
      rw [Option.bind_some, List.getElem?_concat_length]
      rfl
    · rw [beq_eq_false_iff_ne.mpr hsame]
      cases hi : c.sectionIndex.lookup name with
      | none => rfl
      | some i =>
          dsimp only
          rw [Option.bind_some, Option.bind_some, List.getElem?_append_left (h.lt_of_lookup hi)]

theorem Describes.enterSection (h : Describes c current written) (next : Str) :
    Describes (c.enterSection next) next written := by
  refine ⟨h.toAt.enterSection next, ?_, ?_, fun name => ?_⟩
  · rw [ConfigFile.enterSection]
    split
    next hi => exact hi
    next => rw [List.lookup_cons, beq_self_eq_true]
  · rw [ConfigFile.enterSection]
    split
    next => exact h.keyed
    next =>
      rintro s hs
      rcases List.mem_append.mp hs with hold | hnew
      · exact h.keyed s hold
      · rw [List.mem_singleton.mp hnew]
        exact fun _ => rfl
  · rw [entriesOf_enterSection h.toAt]
    exact h.entries name

/-- Only the current section is written to. -/
theorem entriesOf_record (h : Describes c current written) (key value name : Str) :
    entriesOf (c.record key value) name =
      if current = name then upsert Prod.fst (entriesOf c name) (key, value)
      else entriesOf c name := by
  rw [entriesOf, entriesOf, ConfigFile.record]
  dsimp only
  by_cases hsame : current = name
  · obtain ⟨s, hs, -⟩ := Option.map_eq_some_iff.mp h.current
    rw [if_pos hsame, ← hsame, h.found, Option.bind_some, Option.bind_some,
      List.getElem?_modify, hs]
    have hkeyed := h.keyed s (List.mem_of_getElem? hs)
    simp only [if_true, Option.map_some, Option.getD_some]
    exact (keyValues_addKeyValue hkeyed key value).1
  · rw [if_neg hsame]
    cases hi : c.sectionIndex.lookup name with
    | none => rfl
    | some i =>
        have hne : c.currentSectionIndex ≠ i := by
          rintro rfl
          have hname := h.indexed name _ hi
          exact hsame (Option.some.inj (h.current.symm.trans hname))
        rw [Option.bind_some, Option.bind_some, List.getElem?_modify_ne _ _ hne]

theorem Describes.record (h : Describes c current written) (key value : Str) :
    Describes (c.record key value) current fun name =>
      written name ++ if current = name then [(key, value)] else [] := by
  refine ⟨h.toAt.record key value, h.found, fun s hs => ?_, fun name => ?_⟩
  · obtain ⟨i, hi⟩ := List.mem_iff_getElem?.mp hs
    rw [ConfigFile.record, List.getElem?_modify] at hi
    obtain ⟨s', hs', rfl⟩ := Option.map_eq_some_iff.mp hi
    have hkeyed := h.keyed s' (List.mem_of_getElem? hs')
    split
    · exact (keyValues_addKeyValue hkeyed key value).2
    · exact hkeyed
  · rw [entriesOf_record h, h.entries name]
    split
    · rw [upsertAll_append_singleton]
    · rw [List.append_nil]

theorem Describes.applyAll (h : Describes c current written) (lines : List Line) :
    Describes (c.applyAll lines) (sectionAfter current lines) fun name =>
      written name ++ keysIn name current lines := by
  induction lines generalizing c current written with
  | nil =>
      simp only [keysIn, List.append_nil]
      exact h
  | cons line lines ih =>
      rw [ConfigFile.applyAll, List.foldl_cons]
      simp only [keysIn, sectionAfter]
      cases line.meaning with
      | blank => exact ih h
      | includes f => exact ih h
      | header next => exact ih (h.enterSection next)
      | keyValue key value =>
          simp only [← List.append_assoc]
          exact ih (h.record key value)

/-! ## Loading files of lines -/

/-- Every line is taken for what it is, and loading into any object succeeds and writes the key
lines, and nothing else, into the sections they stand in. -/
structure LoadsAsWritten (fs : FileSystem) (file : Str) (all : List Line) : Prop where
  classified : ∀ line ∈ all, directive line.text = .ok line.meaning
  loads : ∀ c current written, Describes c current written → ∃ N c',
    (∀ fuel ≥ N, load fs fuel file c = .ok (.ok, c')) ∧
      ∀ name, LastAtFirst (written name ++ keysIn name current all) (c'.entriesOf name)

/-- A line with nothing around its content. -/
def Content.line (content : Content) : Line := ⟨⟨[], nofun⟩, content, ⟨[], nofun⟩, none⟩

/-- A list of symbols that includes another one. -/
def symbolLists (symbol : Str) : FileSystem where
  pathExists p := p = "./More.conf".toList
  openFile p :=
    if p = "Symbols.conf".toList then some "[Function]\nqsort\ninclude \"More.conf\"\n".toList
    else if p = "./More.conf".toList then some symbol
    else none

/-- `[Function]`. -/
def functionHeader : HeaderText where
  text := "Function".toList
  name := "Function".toList
  verbatim := rfl
  nonblank := by decide
  parses := rfl

/-- `include "More.conf"`. -/
def includeMore : IncludeText where
  gap := ⟨[' '], List.all_eq_true.mp rfl⟩
  file := "\"More.conf\"".toList
  separated := .inl (List.cons_ne_nil _ _)
  verbatim := rfl
  nonempty := List.cons_ne_nil _ _
  trimmed := by
    refine ⟨fun c hc => ?_, fun c hc => ?_⟩
    · cases hc
      rfl
    · cases hc
      rfl

def qsort : Identifier := ⟨'q', "sort".toList, List.all_eq_true.mp rfl, rfl⟩

/-- The lines of `Symbols.conf` with those of the file it includes. -/
def symbolLines (symbol : Identifier) : List Line :=
  [(Content.header functionHeader).line, (Content.bareKey qsort).line,
    (Content.includes includeMore).line, (Content.bareKey symbol).line]

theorem shaped_symbolLists (symbol : Identifier) (h : getlines symbol.text = [symbol.text]) :
    Shaped (symbolLists symbol.text) (.file "Symbols.conf".toList) (symbolLines symbol) := by
  have htext : getlines symbol.text = [(Content.bareKey symbol).line].map Line.text := by
    rw [h]
    show [symbol.text] = [[] ++ symbol.text ++ [] ++ []]
    simp
  have hmore : Shaped (symbolLists symbol.text) (.file "./More.conf".toList)
      [(Content.bareKey symbol).line] := .file rfl htext (.entry nofun .nil)
  have hincludes : Shaped (symbolLists symbol.text) (.lines "Symbols.conf".toList
      [(Content.includes includeMore).line])
      ((Content.includes includeMore).line :: ([(Content.bareKey symbol).line] ++ [])) :=
    .included rfl rfl hmore .nil
  have hlines : Shaped (symbolLists symbol.text) (.lines "Symbols.conf".toList
      [(Content.header functionHeader).line, (Content.bareKey qsort).line,
        (Content.includes includeMore).line]) (symbolLines symbol) :=
    .entry nofun (.entry nofun hincludes)
  exact .file rfl rfl hlines

def bsearch : Identifier := ⟨'b', "search".toList, List.all_eq_true.mp rfl, rfl⟩

def includesPoint : Identifier := ⟨'i', "ncludes_point".toList, List.all_eq_true.mp rfl, rfl⟩

end Lorelei.Support.ConfigFile
