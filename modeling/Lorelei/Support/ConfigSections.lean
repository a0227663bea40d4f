import Lorelei.Support.ConfigLoad

/-!
# Sections and included files

A key line is recorded in the current section of the object. The current section is one
for all files that an object loads, so it is the one that the last header which was read has
named, whatever file the header stands in. That is the section above the key line in its own
file exactly if no included file has moved it, and no key line without a header above it is
read while another section than the global one is current (`recordsInOwn_iff`).
-/

namespace Lorelei.Support.ConfigFile

variable {fs : FileSystem} {file : Str} {lineNum : Nat} {line : Str} {lines : List Str}
  {fuel : Nat} {c c' : ConfigFile}

/-! ## Where key lines are recorded -/

/-- The name of the section that a key line is recorded in. -/
def currentName (c : ConfigFile) : Option Str :=
  (c.sections[c.currentSectionIndex]?).map Section.name

/-- A key line that was recorded: the section of the nearest header above it in its file (the
global one if there is none), and the section it was recorded in. -/
structure Recorded where
  own : Str
  landed : Option Str
deriving DecidableEq, Repr

/-- The nearest header above the next line of the same file. -/
def headerAfter (own : Option Str) : Except Str Directive → Option Str
  | .ok (.header name) => some name
  | _ => own

/-- What is recorded while a line is parsed, given what `load` records. -/
def lineLog (fs : FileSystem) (log : Str → ConfigFile → List Recorded) (own : Option Str)
    (c : ConfigFile) : Except Str Directive → List Recorded
  | .ok (.keyValue _ _) => [⟨own.getD globalSectionName, c.currentName⟩]
  | .ok (.includes f) =>
      let path := joinPath (c.baseDirStack.headD ['.']) f
      if fs.pathExists path then log path c else []
  | _ => []

/-- What is recorded by `parseLines`, given `load` and what it records. -/
def linesLog (fs : FileSystem) (load : Str → ConfigFile → Run (ParseResult × ConfigFile))
    (log : Str → ConfigFile → List Recorded) (file : Str) :
    (own : Option Str) → (lineNum : Nat) → List Str → ConfigFile → List Recorded
  | _, _, [], _ => []
  | own, lineNum, line :: lines, c =>
      lineLog fs log own c (directive line) ++
        match parseLine fs load line file (lineNum + 1) c with
        | .ok (result, c) =>
            if result.success then
              linesLog fs load log file (headerAfter own (directive line)) (lineNum + 1) lines c
            else []
        | .error _ => []

/-- What is recorded by `load`. -/
def loadLog (fs : FileSystem) : (fuel : Nat) → Str → ConfigFile → List Recorded
  | 0, _, _ => []
  | fuel + 1, file, c =>
      match fs.openFile file with
      | none => []
      | some text =>
          linesLog fs (load fs fuel) (loadLog fs fuel) file none 0 (getlines text)
            (c.pushBaseDir (baseDirOf file))

/-- What is recorded by calls of `load` on one object. -/
def callsLog (fuel : Nat) : List (FileSystem × Str) → ConfigFile → List Recorded
  | [], _ => []
  | (fs, file) :: calls, c =>
      loadLog fs fuel file c ++
        match load fs fuel file c with
        | .ok (_, c) => callsLog fuel calls c
        | .error _ => []

/-! ## What the files say -/

/-- How reading a file ends: at the end of the file, at once because it does not open, at
an error in it, or at an error in an included file that has been opened. -/
inductive Outcome where
  | ended | closed | failed | stuck
deriving DecidableEq, Repr

/-- A key line as it stands in the files: the nearest header above it in its file, the last
header that the files included since then have, and the section that is current when its
file is opened. -/
structure KeyLine where
  own : Option Str
  brought : Option Str
  incoming : Str
deriving DecidableEq, Repr

/-- What reading some lines gives: the key lines, the last header, and how it ends. -/
structure Reading where
  keys : List KeyLine
  last : Option Str
  outcome : Outcome
deriving DecidableEq, Repr

namespace KeyLine

/-- The section that the last header before the line names. -/
def lastSection (k : KeyLine) : Str := k.brought.getD (k.own.getD k.incoming)

/-- Included files have not moved the section above the line, and without a header above it
its file is opened in the global section. -/
def Undisturbed (k : KeyLine) : Prop :=
  (∀ name, k.brought = some name → name = k.own.getD globalSectionName) ∧
    (k.brought = none → k.own = none → k.incoming = globalSectionName)

end KeyLine

/-- Reading the lines of a file that is opened with `incoming` as the current section. -/
def readLines (fs : FileSystem) (readFile : Str → Str → Reading) (file incoming : Str) :
    (own brought : Option Str) → List Str → Reading
  | own, brought, [] => ⟨[], brought.or own, .ended⟩
  | own, brought, line :: lines =>
      match directive line with
      | .error _ => ⟨[], none, .failed⟩
      | .ok .blank => readLines fs readFile file incoming own brought lines
      | .ok (.header name) => readLines fs readFile file incoming (some name) none lines
      | .ok (.keyValue _ _) =>
          let r := readLines fs readFile file incoming own brought lines
          { r with keys := ⟨own, brought, incoming⟩ :: r.keys }
      | .ok (.includes f) =>
          if fs.pathExists (target file f) then
            let r := readFile (target file f) (brought.getD (own.getD incoming))
            match r.outcome with
            | .ended =>
                let r' := readLines fs readFile file incoming own (r.last.or brought) lines
                { r' with keys := r.keys ++ r'.keys }
            | .closed => ⟨r.keys, none, .failed⟩
            | .failed | .stuck => ⟨r.keys, none, .stuck⟩
          else ⟨[], none, .failed⟩

/-- Reading a file, to a depth of includes. -/
def readFile (fs : FileSystem) : (fuel : Nat) → Str → (incoming : Str) → Reading
  | 0, _, _ => ⟨[], none, .stuck⟩
  | fuel + 1, file, incoming =>
      match fs.openFile file with
      | none => ⟨[], none, .closed⟩
      | some text => readLines fs (readFile fs fuel) file incoming none none (getlines text)

/-- The key lines of files that are loaded one after the other. -/
def callsKeys (fuel : Nat) : List (FileSystem × Str) → (incoming : Str) → List KeyLine
  | [], _ => []
  | (fs, file) :: calls, incoming =>
      let r := readFile fs fuel file incoming
      r.keys ++
        match r.outcome with
        | .ended => callsKeys fuel calls (r.last.getD incoming)
        | .closed => callsKeys fuel calls incoming
        | .failed => callsKeys fuel calls globalSectionName
        | .stuck => []

/-! ## The current section -/

/-- The index of sections leads to sections of that name, and the current section has this
name. -/
structure At (c : ConfigFile) (name : Str) : Prop where
  indexed : ∀ name i, c.sectionIndex.lookup name = some i →
    (c.sections[i]?).map Section.name = some name
  current : c.currentName = some name

variable {name : Str}

theorem at_fresh : At fresh globalSectionName := by
  refine ⟨fun name i h => ?_, rfl⟩
  obtain ⟨before, after, heq, -⟩ := List.lookup_eq_some_iff.mp h
  have hmem : (name, i) ∈ [(globalSectionName, 0)] := by
    rw [show [(globalSectionName, 0)] = before ++ (name, i) :: after from heq]
    simp
  cases List.mem_singleton.mp hmem
  rfl

/-- Sections are neither renamed nor moved when a key is recorded. -/
theorem map_name_record (c : ConfigFile) (key value : Str) (i : Nat) :
    ((c.record key value).sections[i]?).map Section.name = (c.sections[i]?).map Section.name := by
  have hname : ∀ section_ : Section, (section_.addKeyValue key value).name = section_.name := by
    intro section_
    rw [Section.addKeyValue]
    split <;> rfl
  rw [record, List.getElem?_modify]
  cases c.sections[i]? with
  | none => rfl
  | some section_ =>
      show some
        (if c.currentSectionIndex = i then section_.addKeyValue key value else section_).name
        = some section_.name
      split
      · exact congrArg some (hname section_)
      · rfl

theorem At.record (h : At c name) (key value : Str) : At (c.record key value) name := by
  refine ⟨fun name i hi => ?_, ?_⟩
  · rw [map_name_record]
    exact h.indexed name i hi
  · exact (map_name_record c key value _).trans h.current

theorem At.enterSection (h : At c name) (name' : Str) : At (c.enterSection name') name' := by
  rw [ConfigFile.enterSection]
  split
  next i hi => exact ⟨h.indexed, h.indexed name' i hi⟩
  next hnone =>
    constructor
    · intro name i hi
      rw [List.lookup_cons] at hi
      dsimp only
      split at hi
      next heq =>
        cases hi
        rw [List.getElem?_concat_length, beq_iff_eq.mp heq]
        rfl
      next =>
        have hold := h.indexed name i hi
        have hlt : i < c.sections.length := by
          by_contra hge
          rw [List.getElem?_eq_none (Nat.not_lt.mp hge)] at hold
          cases hold
        rwa [List.getElem?_append_left hlt]
    · rw [currentName, List.getElem?_concat_length]
      rfl

theorem At.withStack (h : At c name) (stack : List Str) :
    At { c with baseDirStack := stack } name :=
  ⟨h.indexed, h.current⟩

/-! ## Reading and loading -/

/-- What is recorded for a key line. -/
def KeyLine.recorded (k : KeyLine) : Recorded :=
  ⟨k.own.getD globalSectionName, some k.lastSection⟩

/-- Parsing lines ends as reading them does; `incoming` is the section they start in, and
`stack` what is left of the base directories. -/
def LinesEnd (r : Reading) (incoming : Str) (stack : List Str)
    (run : Run (ParseResult × ConfigFile)) : Prop :=
  match r.outcome with
  | .ended => ∃ c', run = .ok (.ok, c') ∧ At c' (r.last.getD incoming) ∧ c'.baseDirStack = stack
  | .closed => False
  | .failed => ∃ e : ParseResult, e.success = false ∧ run = .ok (e, fresh)
  | .stuck => ∃ stuck, run = .error stuck

/-- Loading a file ends as reading it does. -/
def FileEnd (r : Reading) (incoming : Str) (c : ConfigFile)
    (run : Run (ParseResult × ConfigFile)) : Prop :=
  (r.outcome = .closed ∧ ∃ e : ParseResult, e.success = false ∧ run = .ok (e, c)) ∨
    LinesEnd r incoming c.baseDirStack run

section Lines

variable {load : Str → ConfigFile → Run (ParseResult × ConfigFile)}
  {log : Str → ConfigFile → List Recorded} {own : Option Str}

theorem linesLog_of_ok (h : parseLine fs load line file (lineNum + 1) c = .ok (.ok, c')) :
    linesLog fs load log file own lineNum (line :: lines) c =
      lineLog fs log own c (directive line) ++
        linesLog fs load log file (headerAfter own (directive line)) (lineNum + 1) lines c' := by
  rw [linesLog, h]
  rfl

theorem linesLog_of_error {e : ParseResult} (he : e.success = false)
    (h : parseLine fs load line file (lineNum + 1) c = .ok (e, c')) :
    linesLog fs load log file own lineNum (line :: lines) c =
      lineLog fs log own c (directive line) := by
  rw [linesLog, h]
  dsimp only
  rw [he, if_neg Bool.false_ne_true, List.append_nil]

theorem linesLog_of_stuck {stuck : Stuck}
    (h : parseLine fs load line file (lineNum + 1) c = .error stuck) :
    linesLog fs load log file own lineNum (line :: lines) c =
      lineLog fs log own c (directive line) := by
  rw [linesLog, h, List.append_nil]

theorem linesLog_eq {readFile : Str → Str → Reading}
    (hload : ∀ path c name, At c name →
      log path c = (readFile path name).keys.map KeyLine.recorded ∧
      FileEnd (readFile path name) name c (load path c)) {incoming : Str} {brought : Option Str}
    (hat : At c (brought.getD (own.getD incoming)))
    (hready : c.baseDirStack.head? = some (baseDirOf file)) :
    linesLog fs load log file own lineNum lines c =
        (readLines fs readFile file incoming own brought lines).keys.map KeyLine.recorded ∧
      LinesEnd (readLines fs readFile file incoming own brought lines) incoming c.baseDirStack.tail
        (parseLines fs load file lineNum lines c) := by
  induction lines generalizing own brought lineNum c with
  | nil =>
      refine ⟨rfl, { c with baseDirStack := c.baseDirStack.tail }, ?_, ?_, rfl⟩
      · rw [parseLines, popBaseDir_of_ready hready]
        rfl
      · show At _ ((brought.or own).getD incoming)
        have hname : (brought.or own).getD incoming = brought.getD (own.getD incoming) := by
          cases brought <;> rfl
        rw [hname]
        exact hat.withStack _
  | cons line lines ih =>
      cases hd : directive line with
      | error msg =>
          have hparse : parseLine fs load line file (lineNum + 1) c =
              .ok (.error msg file (lineNum + 1), c) := by
            rw [parseLine_eq, hd]
            rfl
          rw [readLines, hd, linesLog_of_error rfl hparse, hd,
            parseLines_of_error rfl hparse hready]
          exact ⟨rfl, _, rfl, rfl⟩
      | ok d =>
          cases d with
          | blank =>
              have hparse : parseLine fs load line file (lineNum + 1) c = .ok (.ok, c) :=
                parseLine_entry hd (by simp)
              rw [readLines, hd, linesLog_of_ok hparse, hd, parseLines_of_ok hparse]
              exact ih hat hready
          | header name =>
              have hparse : parseLine fs load line file (lineNum + 1) c =
                  .ok (.ok, c.enterSection name) := parseLine_entry hd (by simp)
              have hstack := baseDirStack_apply c (.header name)
              rw [readLines, hd, linesLog_of_ok hparse, hd, parseLines_of_ok hparse, ← hstack]
              exact ih (hat.enterSection name) (hstack ▸ hready)
          | keyValue key value =>
              have hparse : parseLine fs load line file (lineNum + 1) c =
                  .ok (.ok, c.record key value) := parseLine_entry hd (by simp)
              rw [readLines, hd, linesLog_of_ok hparse, hd, parseLines_of_ok hparse, lineLog,
                hat.current]
              exact (ih (hat.record key value) hready).imp_left (congrArg (_ :: ·))
          | includes f =>
              rw [readLines, hd]
              dsimp only
              cases hp : fs.pathExists (target file f) with
              | false =>
                  have hparse : parseLine fs load line file (lineNum + 1) c = .ok (.error
                    ("Included file not found: ".toList ++ target file f) file (lineNum + 1), c) :=
                      parseLine_missing hd hp hready
                  rw [linesLog_of_error rfl hparse, hd,
                    parseLines_of_error rfl hparse hready, lineLog,
                    headD_of_ready hready, if_neg Bool.false_ne_true]
                  refine ⟨?_, _, rfl, rfl⟩
                  exact if_neg (by rw [target] at hp; simp [hp])
              | true =>
                  obtain ⟨hlog, hend⟩ := hload (target file f) c _ hat
                  have hparse : parseLine fs load line file (lineNum + 1) c =
                      load (target file f) c := parseLine_includes hd hp hready
                  have hline : lineLog fs log own c (directive line) = log (target file f) c := by
                    rw [hd, lineLog, headD_of_ready hready]
                    exact if_pos hp
                  generalize readFile (target file f) (brought.getD (own.getD incoming)) = r
                    at hlog hend
                  rw [if_pos rfl]
                  rcases hend with ⟨hclosed, e, he, hrun⟩ | hend
                  · rw [hrun] at hparse
                    rw [linesLog_of_error he hparse,
                      parseLines_of_error he hparse hready, hline, hlog,
                      hclosed]
                    exact ⟨rfl, e, he, rfl⟩
                  · rw [LinesEnd] at hend
                    cases houtcome : r.outcome with
                    | ended =>
                        rw [houtcome] at hend
                        obtain ⟨c', hrun, hat', hstack⟩ := hend
                        rw [hrun] at hparse
                        have hname : (r.last.or brought).getD (own.getD incoming) =
                            r.last.getD (brought.getD (own.getD incoming)) := by
                          cases r.last <;> rfl
                        have hown : headerAfter own (directive line) = own := by
                          rw [hd]
                          rfl
                        obtain ⟨hrest, hends⟩ := @ih (lineNum + 1) c' own (r.last.or brought)
                          (hname ▸ hat') (hstack ▸ hready)
                        rw [linesLog_of_ok hparse, parseLines_of_ok hparse, hline, hlog, hown,
                          hrest,
                          ← hstack]
                        exact ⟨(List.map_append ..).symm, hends⟩
                    | closed =>
                        rw [houtcome] at hend
                        exact hend.elim
                    | failed =>
                        rw [houtcome] at hend
                        obtain ⟨e, he, hrun⟩ := hend
                        rw [hrun] at hparse
                        rw [linesLog_of_error he hparse, parseLines_of_fresh he hparse, hline, hlog]
                        exact ⟨rfl, _, rfl⟩
                    | stuck =>
                        rw [houtcome] at hend
                        obtain ⟨stuck, hrun⟩ := hend
                        rw [hrun] at hparse
                        rw [linesLog_of_stuck hparse, hline, hlog, parseLines, hparse]
                        exact ⟨rfl, stuck, rfl⟩

end Lines

/-- What `load` records is what the files say, whatever the depth of includes. -/
theorem loadLog_eq (hat : At c name) :
    loadLog fs fuel file c = (readFile fs fuel file name).keys.map KeyLine.recorded ∧
      FileEnd (readFile fs fuel file name) name c (load fs fuel file c) := by
  induction fuel generalizing file c name with
  | zero => exact ⟨rfl, .inr ⟨_, rfl⟩⟩
  | succ fuel ih =>
      rw [loadLog, readFile, load]
      cases fs.openFile file with
      | none => exact ⟨rfl, .inl ⟨rfl, _, rfl, rfl⟩⟩
      | some text =>
          dsimp only
          have hready : (c.pushBaseDir (baseDirOf file)).baseDirStack.head? =
            some (baseDirOf file) := rfl
          have hincluded : ∀ path c name, At c name →
              loadLog fs fuel path c = (readFile fs fuel path name).keys.map KeyLine.recorded ∧
                FileEnd (readFile fs fuel path name) name c (load fs fuel path c) :=
            fun path c name hc => ih hc
          have hpushed : At (c.pushBaseDir (baseDirOf file)) ((none : Option Str).getD
            ((none : Option Str).getD name)) := hat.withStack _
          exact (linesLog_eq hincluded hpushed hready).imp_right .inr

/-- What a sequence of calls records is what the files say. -/
theorem callsLog_eq {calls : List (FileSystem × Str)} (hat : At c name) :
    callsLog fuel calls c = (callsKeys fuel calls name).map KeyLine.recorded := by
  induction calls generalizing c name with
  | nil => rfl
  | cons call calls ih =>
      obtain ⟨fs, file⟩ := call
      obtain ⟨hlog, hend⟩ := @loadLog_eq fs file fuel c name hat
      rw [callsLog, callsKeys, List.map_append, hlog]
      congr 1
      rcases hend with ⟨hclosed, e, -, hrun⟩ | hend
      · rw [hclosed, hrun]
        exact ih hat
      · rw [LinesEnd] at hend
        cases houtcome : (readFile fs fuel file name).outcome with
        | ended =>
            rw [houtcome] at hend
            obtain ⟨c', hrun, hat', -⟩ := hend
            rw [hrun]
            exact ih hat'
        | closed =>
            rw [houtcome] at hend
            exact hend.elim
        | failed =>
            rw [houtcome] at hend
            obtain ⟨e, -, hrun⟩ := hend
            rw [hrun]
            exact ih at_fresh
        | stuck =>
            rw [houtcome] at hend
            obtain ⟨stuck, hrun⟩ := hend
            rw [hrun]
            rfl

/-! ## The rule -/

/-- In every run of the calls, each key line is recorded in the section of the nearest header
above it in its file, or in the global section. -/
def RecordsInOwn (calls : List (FileSystem × Str)) : Prop :=
  ∀ fuel, ∀ r ∈ callsLog fuel calls fresh, r.landed = some r.own

theorem KeyLine.landed_iff (k : KeyLine) :
    k.recorded.landed = some k.recorded.own ↔ k.Undisturbed := by
  obtain ⟨own, brought, incoming⟩ := k
  rw [recorded, Undisturbed, lastSection, Option.some.injEq]
  cases brought with
  | none => cases own <;> simp
  | some name => simp

/-- Key lines are recorded in their own sections exactly if included files and earlier loads
leave the section alone. -/
theorem recordsInOwn_iff (calls : List (FileSystem × Str)) :
    RecordsInOwn calls ↔
      ∀ fuel, ∀ k ∈ callsKeys fuel calls globalSectionName, k.Undisturbed := by
  refine forall_congr' fun fuel => ?_
  rw [callsLog_eq at_fresh, List.forall_mem_map]
  exact forall₂_congr fun k _ => k.landed_iff

/-- A file with a section and a file without one. -/
def netAndHost : FileSystem where
  pathExists _ := true
  openFile p :=
    if p = "net".toList then some "[net]\nport = 80".toList
    else if p = "host".toList then some "name = a".toList
    else none

/-- `name` has no header above it and is recorded in the section that the file loaded before
has left. -/
theorem not_recordsInOwn : ¬ ∀ calls : List (FileSystem × Str), RecordsInOwn calls := by
  intro h
  have hlog : callsLog 1 [(netAndHost, "net".toList), (netAndHost, "host".toList)] fresh =
      [⟨"net".toList, some "net".toList⟩, ⟨globalSectionName, some "net".toList⟩] := rfl
  have hall := h [(netAndHost, "net".toList), (netAndHost, "host".toList)] 1
  rw [hlog] at hall
  have hown := Option.some.inj (hall _ (List.mem_cons_of_mem _ List.mem_cons_self))
  revert hown
  decide

end Lorelei.Support.ConfigFile
