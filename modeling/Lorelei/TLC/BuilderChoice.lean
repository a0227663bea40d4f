import Lorelei.TLC.LibCFormat
import Lorelei.TLC.Pipeline

/-!
# Which builder a proc gets

The builder that a proc is meant to get is the one its descriptor names, if that is
registered, else the builder of lowest id whose test accepts the proc, else the default
builder. The pipeline only looks at tests. So a named builder is taken if and only if
its own test accepts the proc and no builder with a smaller id is in front of it.
-/

namespace Lorelei.TLC

open Support

variable {M D : Type*} {builders : List (Pass M D)} {proc : ProcSnippet} {n m : Int}

/-- The test of the builder with this id, the default builder apart, accepts the proc. -/
def Matching (builders : List (Pass M D)) (proc : ProcSnippet) (n : Int) : Prop :=
  ∃ pass ∈ builders, pass.id = n ∧ n ≠ ID_DefaultBuilder ∧ (pass.testProc proc).matched = true

/-- The id that the descriptor of a proc gives, if a builder is registered under it. -/
def namedBuilder (builders : List (Pass M D)) (proc : ProcSnippet) : Option Int :=
  (proc.builderPass.map PassInfo.id).filter fun n => builders.any fun pass => pass.id = n

/-- The builder that the tests alone decide for. -/
def TestsChoose (builders : List (Pass M D)) (proc : ProcSnippet) (n : Int) : Prop :=
  IsLeast {k | Matching builders proc k} n ∨
    (∀ k, ¬ Matching builders proc k) ∧ n = ID_DefaultBuilder

/-- The builder that a proc is meant to get. -/
def IntendedBuilder (builders : List (Pass M D)) (proc : ProcSnippet) (n : Int) : Prop :=
  match namedBuilder builders proc with
  | some named => n = named
  | none => TestsChoose builders proc n

/-- A registered builder that the descriptor names accepts the proc by its own test, and
no builder of a smaller id does. -/
def DescriptorWins (builders : List (Pass M D)) (proc : ProcSnippet) : Prop :=
  ∀ named, namedBuilder builders proc = some named →
    (named = ID_DefaultBuilder ∨ Matching builders proc named) ∧
      ∀ k, Matching builders proc k → named ≠ ID_DefaultBuilder ∧ named ≤ k

/-- The tests choose only one builder. -/
theorem TestsChoose.unique (hn : TestsChoose builders proc n) (hm : TestsChoose builders proc m) :
    n = m := by
  rcases hn with hn | ⟨hnone, rfl⟩
  · rcases hm with hm | ⟨hnone, -⟩
    · exact hn.unique hm
    · exact absurd hn.1 (hnone n)
  · rcases hm with hm | ⟨-, rfl⟩
    · exact absurd hm.1 (hnone m)
    · rfl

/-- The builder that the tests choose is the intended one exactly where the descriptor
does not disagree with the tests. -/
theorem intended_iff (h : TestsChoose builders proc n) :
    IntendedBuilder builders proc n ↔ DescriptorWins builders proc := by
  rw [IntendedBuilder, DescriptorWins]
  cases hnamed : namedBuilder builders proc with
  | none => exact ⟨fun _ _ heq => (nomatch heq), fun _ => h⟩
  | some named =>
      constructor
      · rintro rfl named' heq
        cases heq
        rcases h with hleast | ⟨hnone, rfl⟩
        · refine ⟨.inr hleast.1, fun k hk => ⟨?_, hleast.2 hk⟩⟩
          obtain ⟨-, -, -, hne, -⟩ := hleast.1
          exact hne
        · exact ⟨.inl rfl, fun k hk => absurd hk (hnone k)⟩
      · intro hwins
        obtain ⟨hself, hle⟩ := hwins named rfl
        refine h.unique ?_
        rcases hself with rfl | hself
        · exact .inr ⟨fun k hk => (hle k hk).1 rfl, rfl⟩
        · exact .inl ⟨hself, fun k hk => (hle k hk).2⟩

/-! ## What the scan takes -/

/-- The scan takes the builder that the tests choose. -/
theorem testsChoose_builderTask {e : Entry} {defaultBuilder : Pass M D}
    (hsorted : builders.Pairwise fun p q => p.id < q.id)
    (hid : defaultBuilder.id = ID_DefaultBuilder) :
    TestsChoose builders e.proc (builderTask builders defaultBuilder e).pass.id := by
  have hwants : ∀ pass : Pass M D, wants e.proc pass = true ↔
      pass.id ≠ ID_DefaultBuilder ∧ (pass.testProc e.proc).matched = true := by
    simp [wants]
  rw [builderTask]
  split
  next pass hfind =>
    obtain ⟨hwant, before, after, rfl, hbefore⟩ := List.find?_eq_some_iff_append.mp hfind
    obtain ⟨hne, hmatched⟩ := (hwants pass).mp hwant
    refine .inl ⟨⟨pass, by simp, rfl, hne, hmatched⟩, ?_⟩
    rintro k ⟨q, hq, rfl, hqne, hqmatched⟩
    -- a builder in front of the first match does not match
    rcases List.mem_append.mp hq with hq | hq
    · have hnot := hbefore q hq
      rw [(hwants q).mpr ⟨hqne, hqmatched⟩] at hnot
      exact absurd hnot (by simp)
    · rcases List.mem_cons.mp hq with rfl | hq
      · exact le_rfl
      · have hlater := (List.pairwise_append.mp hsorted).2.1
        exact ((List.pairwise_cons.mp hlater).1 q hq).le
  next hfind =>
    refine .inr ⟨?_, hid⟩
    rintro k ⟨q, hq, rfl, hqne, hqmatched⟩
    exact absurd ((hwants q).mpr ⟨hqne, hqmatched⟩) (List.find?_eq_none.mp hfind q hq)

/-! ## The runs -/

/-- Every proc has one place in the tables. -/
theorem ProcTables.nodup_slots (tables : ProcTables) :
    (tables.entries.map Entry.slot).Nodup := by
  have hslot : tables.entries.map Entry.slot =
      [ProcKind.function, .callback].flatMap fun kind =>
        [ProcDirection.guestToHost, .hostToGuest].flatMap fun dir =>
          ((tables.procs kind dir).map Prod.fst).map fun key => (kind, dir, key) := by
    simp [ProcTables.entries, Entry.slot, Function.comp_def]
  have hkeys : ∀ kind dir,
      (((tables.procs kind dir).map Prod.fst).map fun key => (kind, dir, key)).Nodup := by
    intro kind dir
    have hlt : ((tables.procs kind dir).map Prod.fst).Nodup := by
      refine (tables.sorted kind dir).imp ?_
      rintro a b h rfl
      exact List.lt_irrefl a h
    exact hlt.map fun a b h => (Prod.ext_iff.mp (Prod.ext_iff.mp h).2).2
  have hdirs : ∀ kind, ([ProcDirection.guestToHost, .hostToGuest].flatMap fun dir =>
      ((tables.procs kind dir).map Prod.fst).map fun key => (kind, dir, key)).Nodup := by
    intro kind
    simp only [List.flatMap_cons, List.flatMap_nil, List.append_nil]
    refine List.Nodup.append (hkeys _ _) (hkeys _ _) ?_
    intro x hx hx'
    obtain ⟨_, _, rfl⟩ := List.mem_map.mp hx
    obtain ⟨_, _, heq⟩ := List.mem_map.mp hx'
    exact nomatch (Prod.ext_iff.mp (Prod.ext_iff.mp heq).2).1
  rw [hslot, List.flatMap_cons, List.flatMap_singleton]
  refine List.Nodup.append (hdirs _) (hdirs _) ?_
  intro x hx hx'
  simp only [List.mem_flatMap, List.mem_map] at hx hx'
  obtain ⟨_, _, _, _, rfl⟩ := hx
  obtain ⟨_, _, _, _, heq⟩ := hx'
  exact nomatch (Prod.ext_iff.mp heq).1

theorem filter_slot_eq {entries : List Entry} (h : (entries.map Entry.slot).Nodup) {e : Entry}
    (he : e ∈ entries) : entries.filter (fun e' => e'.slot = e.slot) = [e] := by
  induction entries with
  | nil => exact absurd he List.not_mem_nil
  | cons e' entries ih =>
      obtain ⟨hnot, hnodup⟩ := List.nodup_cons.mp h
      rcases List.mem_cons.mp he with rfl | he
      · rw [List.filter_cons_of_pos (by simp)]
        refine congrArg (e :: ·) (List.filter_eq_nil_iff.mpr fun e' he' heq => hnot ?_)
        exact of_decide_eq_true heq ▸ List.mem_map_of_mem he'
      · rw [List.filter_cons_of_neg, ih hnodup he]
        intro heq
        exact hnot (of_decide_eq_true heq ▸ List.mem_map_of_mem he)

/-- The ids of the builders whose begin hook is called on a proc. -/
def buildersRun (trace : List Event) (e : Entry) : List Int :=
  (trace.filter fun ev => ev.hook = .beginHandleProc ∧ ev.phase = .builder ∧
    ev.entry.slot = e.slot).map Event.id

/-- One builder is run on each proc, and it is the intended one. -/
def BuildsAsIntended (registry : List (Pass M D)) (entries : List Entry) (trace : List Event) :
    Prop :=
  ∀ e ∈ entries, ∃ n, IntendedBuilder (passMap registry .builder) e.proc n ∧
    buildersRun trace e = [n]

/-- The end hooks are the begin hooks backwards. -/
def EndsMirrorBegins (trace : List Event) : Prop :=
  ((trace.filter fun ev => ev.hook = .endHandleProc).map fun ev => (ev.entry, ev.phase, ev.id)) =
    ((trace.filter fun ev => ev.hook = .beginHandleProc).map
      fun ev => (ev.entry, ev.phase, ev.id)).reverse

/-- Begin hooks of builders only come from the builders of the task list. -/
theorem filter_builder_hookEvents {entries : List Entry} {guards miscs : List (RunPassTask M D)}
    {tasks : List (RunPassTask M D)} (h : Staged entries tasks guards miscs) (e : Entry) :
    buildersRun (hookEvents (tasks ++ guards ++ miscs)) e =
      ((tasks.filter fun task => task.entry.slot = e.slot).map fun task => task.pass.id) := by
  have hother : ∀ {l : List (RunPassTask M D)} {hook : Hook}, (∀ task ∈ l,
      hook ≠ .beginHandleProc ∨ task.pass.phase ≠ .builder) →
      (l.map (RunPassTask.event hook)).filter (fun ev => ev.hook = .beginHandleProc ∧
        ev.phase = .builder ∧ ev.entry.slot = e.slot) = [] := by
    intro l hook hl
    refine List.filter_eq_nil_iff.mpr fun ev hev => ?_
    obtain ⟨task, htask, rfl⟩ := List.mem_map.mp hev
    rcases hl task htask with hne | hne
    · simp [RunPassTask.event, hne]
    · simp [RunPassTask.event, hne]
  have hguards := @hother guards .beginHandleProc
    fun task htask => .inr (by rw [h.guards_phase task htask]; decide)
  have hmiscs := @hother miscs .beginHandleProc
    fun task htask => .inr (by rw [h.miscs_phase task htask]; decide)
  have hends := @hother (tasks ++ guards ++ miscs).reverse .endHandleProc
    fun task _ => .inl (by decide)
  rw [buildersRun, hookEvents, List.map_append, List.map_append, List.filter_append,
    List.filter_append, List.filter_append, hguards, hmiscs, hends, List.append_nil,
    List.append_nil, List.append_nil, List.filter_map, List.map_map]
  refine congrArg (List.map _) (List.filter_congr fun task htask => ?_)
  simp [RunPassTask.event, h.builders_phase task htask]

/-- One builder is run on each proc: the one that the tests choose. -/
theorem buildersRun_eq {tables : ProcTables} {registry : List (Pass M D)} {s : DocState D}
    (hok : (endProcessDocument registry tables.entries s).1.hasErrorOccurred = false) {e : Entry}
    (he : e ∈ tables.entries) : ∃ n, TestsChoose (passMap registry .builder) e.proc n ∧
      buildersRun (endProcessDocument registry tables.entries s).2 e = [n] := by
  obtain ⟨-, -, hall⟩ := trace_isPrefix registry tables.entries s
  obtain ⟨hsel, htrace⟩ := hall hok
  obtain ⟨defaultBuilder, hmem, hid, heq⟩ := selectTasks_eq hsel
  refine ⟨_, testsChoose_builderTask pairwise_passMap hid, ?_⟩
  rw [htrace, heq, filter_builder_hookEvents (staged_of_mem hmem), List.filter_map]
  have hself : (fun task : RunPassTask M D => decide (task.entry.slot = e.slot)) ∘
      builderTask (passMap registry .builder) defaultBuilder =
        fun e' => decide (e'.slot = e.slot) := by
    funext e'
    rw [Function.comp_apply, entry_builderTask]
  rw [hself, filter_slot_eq tables.nodup_slots he]
  rfl

theorem endsMirrorBegins_hookEvents (tasks : List (RunPassTask M D)) :
    EndsMirrorBegins (hookEvents tasks) := by
  have hsame : ∀ (l : List (RunPassTask M D)) (hook : Hook),
      (l.map (RunPassTask.event hook)).filter (fun ev => ev.hook = hook) =
        l.map (RunPassTask.event hook) :=
    fun l hook => List.filter_eq_self.mpr (by simp [RunPassTask.event])
  have hother : ∀ (l : List (RunPassTask M D)) {hook hook' : Hook}, hook ≠ hook' →
      (l.map (RunPassTask.event hook)).filter (fun ev => ev.hook = hook') = [] :=
    fun l hook hook' hne => List.filter_eq_nil_iff.mpr (by simp [RunPassTask.event, hne])
  rw [EndsMirrorBegins, hookEvents, List.filter_append, List.filter_append, hsame, hsame,
    hother _ (by decide), hother _ (by decide), List.nil_append, List.append_nil, List.map_map,
    List.map_map, ← List.map_reverse]
  rfl

/-- The hooks of every run are in order. A run that reports no error ends with the begin
hooks backwards, and builds every proc as intended exactly if, wherever a descriptor names
a registered builder, that builder accepts the proc and no builder of a smaller id does. -/
theorem endProcessDocument_builds_iff (registry : List (Pass M D)) (tables : ProcTables)
    (s : DocState D) :
    let r := endProcessDocument registry tables.entries s
    (BuilderFirst r.2 ∧ PhasesAscend r.2) ∧
      (r.1.hasErrorOccurred = false →
        (BuildsAsIntended registry tables.entries r.2 ∧ EndsMirrorBegins r.2 ↔
          ∀ e ∈ tables.entries, DescriptorWins (passMap registry .builder) e.proc)) := by
  refine ⟨hooks_in_order registry tables.entries s, fun hok => ?_⟩
  have hmirror : EndsMirrorBegins (endProcessDocument registry tables.entries s).2 := by
    rw [((trace_isPrefix registry tables.entries s).2.2 hok).2]
    exact endsMirrorBegins_hookEvents _
  constructor
  · rintro ⟨hbuilds, -⟩ e he
    obtain ⟨n, hintended, hrun⟩ := hbuilds e he
    obtain ⟨m, hchoose, hrun'⟩ := buildersRun_eq hok he
    obtain rfl : n = m := by simpa using hrun.symm.trans hrun'
    exact (intended_iff hchoose).mp hintended
  · intro hwins
    refine ⟨fun e he => ?_, hmirror⟩
    obtain ⟨n, hchoose, hrun⟩ := buildersRun_eq hok he
    exact ⟨n, (intended_iff hchoose).mpr (hwins e he), hrun⟩

/-! ## A descriptor that loses -/

/-- A pass of the builder phase with hooks that leave everything as it is. -/
def quietBuilder (id : Int) (test : ProcSnippet → Verdict LibCFormatMessage) :
    Pass LibCFormatMessage Unit where
  phase := .builder
  id := id
  testProc := test
  beginHandleProc _ message s := (message, s)
  endHandleProc _ message s := (message, s)
  endProcessDocument s := s

/-- The five builders of the tool, by their tests. -/
def toolBuilders (getAsString : QualType → Str) : List (Pass LibCFormatMessage Unit) :=
  quietBuilder ID_DefaultBuilder (fun _ => ⟨true, none, []⟩) ::
    [PrintFPass, VPrintFPass, ScanFPass, VScanFPass].map fun pass =>
      quietBuilder pass.id fun proc =>
        let message := pass.testProc getAsString proc
        ⟨message.isSome, message, []⟩

/-- `int log_printf(const char *fmt, ...)`, described as `pass::scanf<1, 2>`. -/
def logPrintf : ProcSnippet where
  kind := .function
  direction := .guestToHost
  name := "log_printf".toList
  functionPointerType := .pointerTo (.functionProto (.builtin {} .int)
    [.pointerTo (.builtin ⟨true, false, false⟩ .char)] true)
  desc := some { builderPass := some ⟨ID_scanf, ⟨some [some 1, some 2]⟩⟩ }

/-- A document with this one proc. -/
def logPrintfTables : ProcTables where
  procs
    | .function, .guestToHost => [(logPrintf.name, logPrintf)]
    | _, _ => []
  sorted kind dir := by cases kind <;> cases dir <;> simp

def logPrintfEntry : Entry := ⟨.function, .guestToHost, logPrintf.name, logPrintf⟩

/-- `log_printf` is built by the printf pass, whatever its descriptor says. -/
theorem not_builds_logPrintf : ¬ ∀ (registry : List (Pass LibCFormatMessage Unit))
    (tables : ProcTables) (s : DocState Unit),
    let r := endProcessDocument registry tables.entries s
    (BuilderFirst r.2 ∧ PhasesAscend r.2) ∧
      (r.1.hasErrorOccurred = false →
        BuildsAsIntended registry tables.entries r.2 ∧ EndsMirrorBegins r.2) := by
  intro h
  have hrun := (h (toolBuilders fun _ => []) logPrintfTables ⟨(), []⟩).2 rfl
  obtain ⟨n, hintended, hbuilders⟩ := hrun.1 logPrintfEntry (.head _)
  have hprintf : buildersRun (endProcessDocument (toolBuilders fun _ => [])
      logPrintfTables.entries ⟨(), []⟩).2 logPrintfEntry = [ID_printf] := rfl
  have hscanf : n = ID_scanf := hintended
  rw [hprintf, hscanf] at hbuilders
  exact nomatch List.cons.inj hbuilders

end Lorelei.TLC
