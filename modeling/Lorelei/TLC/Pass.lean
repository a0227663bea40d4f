import Lorelei.Lib.SortedMap
import Lorelei.TLC.ProcSnippet

/-!
# Passes over the procs of a document

The pass pipeline. The registered passes are kept by phase in the order of their ids;
`endProcessDocument` selects a task list, runs the begin hooks over it and then the end
hooks over it backwards, and stops as soon as an error has been reported. Next to the
document, a run leaves the list of the hooks it has called.
-/

namespace Lorelei.TLC

open Support

/-- The pipeline stages, in the order they run in. -/
inductive Phase where
  | builder | guard | misc
deriving DecidableEq, Repr

/-- The position of a stage in the pipeline. -/
def Phase.index : Phase → Nat
  | .builder => 0
  | .guard => 1
  | .misc => 2

/-- The document the hooks write to, and the errors reported on its diagnostics. -/
structure DocState (D : Type*) where
  document : D
  errors : List String := []

namespace DocState

variable {D : Type*}

def hasErrorOccurred (s : DocState D) : Bool := !s.errors.isEmpty

def report (s : DocState D) (errors : List String) : DocState D :=
  { s with errors := s.errors ++ errors }

end DocState

/-- What testing a proc says: whether the pass wants it, the message it leaves for the
hooks, and the errors it reports. -/
structure Verdict (M : Type*) where
  matched : Bool
  message : Option M := none
  errors : List String := []

/-- A pass. Its test is a predicate of the proc; its hooks may change the message and
the document, and report errors. -/
structure Pass (M D : Type*) where
  phase : Phase
  id : Int
  testProc : ProcSnippet → Verdict M
  beginHandleProc : ProcSnippet → Option M → DocState D → Option M × DocState D
  endHandleProc : ProcSnippet → Option M → DocState D → Option M × DocState D
  endProcessDocument : DocState D → DocState D

variable {M D : Type*}

/-! ## The registry -/

/-- `map[id] = pass`, on a map in the order of its keys. -/
def insertPass (pass : Pass M D) (map : List (Pass M D)) : List (Pass M D) :=
  SortedMap.alter Pass.id pass.id (fun _ => pass) map

/-- `m_passMaps[phase]`: among passes of one id, the one registered last. -/
def passMap (registry : List (Pass M D)) (phase : Phase) : List (Pass M D) :=
  (registry.filter fun pass => pass.phase = phase).foldl (fun map pass => insertPass pass map) []

/-! ## The proc tables -/

/-- The procs of each kind and direction, each table in the order of its keys. -/
structure ProcTables where
  procs : ProcKind → ProcDirection → List (Str × ProcSnippet)
  sorted : ∀ kind dir, ((procs kind dir).map Prod.fst).Pairwise (· < ·)

/-- A proc with its place in the tables. -/
structure Entry where
  kind : ProcKind
  direction : ProcDirection
  key : Str
  proc : ProcSnippet

namespace Entry

/-- The place of a proc in the tables. -/
def slot (e : Entry) : ProcKind × ProcDirection × Str := (e.kind, e.direction, e.key)

end Entry

namespace ProcTables

/-- The procs in the order the loops visit them. -/
def entries (tables : ProcTables) : List Entry :=
  [ProcKind.function, .callback].flatMap fun kind =>
    [ProcDirection.guestToHost, .hostToGuest].flatMap fun dir =>
      (tables.procs kind dir).map fun p => ⟨kind, dir, p.1, p.2⟩

end ProcTables

/-! ## Selecting tasks -/

/-- `RunPassTask`. -/
structure RunPassTask (M D : Type*) where
  entry : Entry
  pass : Pass M D
  message : Option M

/-- How the scan for the builder of a proc ends. -/
inductive Scan (M D : Type*) where
  | stopped
  | matched (pass : Pass M D) (message : Option M)
  | unmatched

/-- The scan over the builders: the first one that wants the proc, the default builder
left out. -/
def scanBuilders (proc : ProcSnippet) :
    List (Pass M D) → DocState D → DocState D × Scan M D
  | [], s => (s, .unmatched)
  | pass :: passes, s =>
      if pass.id = ID_DefaultBuilder then scanBuilders proc passes s
      else
        let verdict := pass.testProc proc
        let s := s.report verdict.errors
        if s.hasErrorOccurred then (s, .stopped)
        else if verdict.matched then (s, .matched pass verdict.message)
        else scanBuilders proc passes s

/-- `appendBuilderPassTasks`, below the lookup of the default builder. -/
def appendBuilderPassTasks (passes : List (Pass M D)) (defaultBuilder : Pass M D) :
    List Entry → DocState D → DocState D × List (RunPassTask M D)
  | [], s => (s, [])
  | e :: entries, s =>
      match scanBuilders e.proc passes s with
      | (s, .stopped) => (s, [])
      | (s, .matched pass message) =>
          let rest := appendBuilderPassTasks passes defaultBuilder entries s
          (rest.1, ⟨e, pass, message⟩ :: rest.2)
      | (s, .unmatched) =>
          let rest := appendBuilderPassTasks passes defaultBuilder entries s
          (rest.1, ⟨e, defaultBuilder, none⟩ :: rest.2)

/-- The tests of all passes of a phase on one proc; whether an error stops the loops. -/
def matchPasses (e : Entry) :
    List (Pass M D) → DocState D → DocState D × List (RunPassTask M D) × Bool
  | [], s => (s, [], false)
  | pass :: passes, s =>
      let verdict := pass.testProc e.proc
      let s := s.report verdict.errors
      if s.hasErrorOccurred then (s, [], true)
      else
        let rest := matchPasses e passes s
        (rest.1, if verdict.matched then ⟨e, pass, verdict.message⟩ :: rest.2.1 else rest.2.1,
          rest.2.2)

/-- `appendMultiMatchPassTasks`. -/
def appendMultiMatchPassTasks (passes : List (Pass M D)) :
    List Entry → DocState D → DocState D × List (RunPassTask M D)
  | [], s => (s, [])
  | e :: entries, s =>
      match matchPasses e passes s with
      | (s, tasks, true) => (s, tasks)
      | (s, tasks, false) =>
          let rest := appendMultiMatchPassTasks passes entries s
          (rest.1, tasks ++ rest.2)

/-! ## Running hooks -/

inductive Hook where
  | beginHandleProc | endHandleProc
deriving DecidableEq, Repr

/-- A hook that has been called. -/
structure Event where
  hook : Hook
  entry : Entry
  phase : Phase
  id : Int

def RunPassTask.event (hook : Hook) (task : RunPassTask M D) : Event :=
  ⟨hook, task.entry, task.pass.phase, task.pass.id⟩

/-- The begin hooks, which may change the messages of their tasks. -/
def runBeginHooks : List (RunPassTask M D) → DocState D →
    DocState D × List (RunPassTask M D) × List Event
  | [], s => (s, [], [])
  | task :: tasks, s =>
      let r := task.pass.beginHandleProc task.entry.proc task.message s
      let event := task.event .beginHandleProc
      if r.2.hasErrorOccurred then (r.2, [], [event])
      else
        let rest := runBeginHooks tasks r.2
        (rest.1, { task with message := r.1 } :: rest.2.1, event :: rest.2.2)

/-- The end hooks, over a list that is already reversed. -/
def runEndHooks : List (RunPassTask M D) → DocState D → DocState D × List Event
  | [], s => (s, [])
  | task :: tasks, s =>
      let s := (task.pass.endHandleProc task.entry.proc task.message s).2
      let event := task.event .endHandleProc
      if s.hasErrorOccurred then (s, [event])
      else
        let rest := runEndHooks tasks s
        (rest.1, event :: rest.2)

/-- The hooks that close the document. -/
def runEndProcessDocument : List (Pass M D) → DocState D → DocState D
  | [], s => s
  | pass :: passes, s =>
      let s := pass.endProcessDocument s
      if s.hasErrorOccurred then s else runEndProcessDocument passes s

/-- The tasks of a document, unless an error is reported while they are selected. -/
def selectTasks (registry : List (Pass M D)) (entries : List Entry) (s : DocState D) :
    DocState D × List (RunPassTask M D) :=
  let builders := passMap registry .builder
  match builders.find? fun pass => pass.id = ID_DefaultBuilder with
  | none => (s.report ["no default builder pass found"], [])
  | some defaultBuilder =>
      let b := appendBuilderPassTasks builders defaultBuilder entries s
      if b.1.hasErrorOccurred then (b.1, []) else
      let g := appendMultiMatchPassTasks (passMap registry .guard) entries b.1
      if g.1.hasErrorOccurred then (g.1, []) else
      let m := appendMultiMatchPassTasks (passMap registry .misc) entries g.1
      if m.1.hasErrorOccurred then (m.1, []) else (m.1, b.2 ++ g.2 ++ m.2)

/-- `DocumentContext::endProcessDocument`: the document it leaves, and the hooks it has
called on procs. -/
def endProcessDocument (registry : List (Pass M D)) (entries : List Entry) (s : DocState D) :
    DocState D × List Event :=
  let selected := selectTasks registry entries s
  if selected.1.hasErrorOccurred then (selected.1, []) else
  let begun := runBeginHooks selected.2 selected.1
  if begun.1.hasErrorOccurred then (begun.1, begun.2.2) else
  let ended := runEndHooks begun.2.1.reverse begun.1
  let trace := begun.2.2 ++ ended.2
  if ended.1.hasErrorOccurred then (ended.1, trace) else
  (runEndProcessDocument (passMap registry .builder ++ passMap registry .guard ++
    passMap registry .misc) ended.1, trace)

end Lorelei.TLC
