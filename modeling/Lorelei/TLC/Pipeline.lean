import Lorelei.TLC.Pass
import Mathlib.Data.List.Nodup
import Mathlib.Order.Bounds.Basic

/-!
# The pass pipeline, as a list of hooks

A run that reports no error calls the begin hooks of the selected tasks and then the end
hooks backwards; any other run stops inside that list (`trace_isPrefix`). The tasks are
one builder for each proc, then the guards, then the rest. Which builder a proc gets is
decided by the tests alone, so that a descriptor decides only where no test disagrees
(`endProcessDocument_builds_iff`).
-/

namespace Lorelei.TLC

open Support

variable {M D : Type*}

namespace DocState

variable {s : DocState D} {errors : List String}

@[simp] theorem report_nil : s.report [] = s := by
  simp [report]

@[simp] theorem hasErrorOccurred_report :
    (s.report errors).hasErrorOccurred = (s.hasErrorOccurred || !errors.isEmpty) := by
  cases s with
  | mk document reported => cases reported <;> simp [report, hasErrorOccurred]

/-- Where no error is reported, reporting has changed nothing. -/
theorem report_eq_self (h : (s.report errors).hasErrorOccurred = false) :
    s.report errors = s := by
  rw [hasErrorOccurred_report, Bool.or_eq_false_iff] at h
  have hnil : errors = [] := by simpa using h.2
  rw [hnil, report_nil]

end DocState

/-! ## The registry -/

variable {registry passes : List (Pass M D)} {pass q : Pass M D} {phase : Phase}

theorem mem_insertPass (h : q ∈ insertPass pass passes) : q = pass ∨ q ∈ passes := by
  rcases SortedMap.mem_alter h with heq | ⟨-, -, heq⟩ | hmem
  · exact .inl heq
  · exact .inl heq
  · exact .inr hmem

/-- A pass of the map of a phase is registered for that phase. -/
theorem phase_of_mem_passMap (h : pass ∈ passMap registry phase) :
    pass ∈ registry ∧ pass.phase = phase := by
  have hmem : ∀ (l map : List (Pass M D)),
      pass ∈ l.foldl (fun map pass => insertPass pass map) map → pass ∈ l ∨ pass ∈ map := by
    intro l
    induction l with
    | nil => exact fun map hmap => .inr hmap
    | cons p l ih =>
        intro map hmap
        rcases ih _ hmap with h | h
        · exact .inl (List.mem_cons_of_mem p h)
        · rcases mem_insertPass h with rfl | h
          · exact .inl List.mem_cons_self
          · exact .inr h
  have hin := (hmem _ [] h).resolve_right List.not_mem_nil
  simpa using List.mem_filter.mp hin

theorem pairwise_passMap : (passMap registry phase).Pairwise fun p q => p.id < q.id := by
  rw [passMap]
  induction registry.filter fun pass => pass.phase = phase using List.reverseRecOn with
  | nil => exact .nil
  | append_singleton l p ih =>
      rw [List.foldl_concat]
      exact SortedMap.sorted_alter (fun _ => rfl) ih

/-! ## Which tasks are selected -/

/-- A builder that wants a proc, the default builder apart. -/
def wants (proc : ProcSnippet) (pass : Pass M D) : Bool :=
  pass.id ≠ ID_DefaultBuilder && (pass.testProc proc).matched

/-- The task of the builder of a proc. -/
def builderTask (passes : List (Pass M D)) (defaultBuilder : Pass M D) (e : Entry) :
    RunPassTask M D :=
  match passes.find? (wants e.proc) with
  | some pass => ⟨e, pass, (pass.testProc e.proc).message⟩
  | none => ⟨e, defaultBuilder, none⟩

/-- The tasks that a phase other than the first has for a proc. -/
def matchTasks (passes : List (Pass M D)) (e : Entry) : List (RunPassTask M D) :=
  (passes.filter fun pass => (pass.testProc e.proc).matched).map fun pass =>
    ⟨e, pass, (pass.testProc e.proc).message⟩

variable {entries : List Entry} {e : Entry} {defaultBuilder : Pass M D} {s : DocState D}

theorem scanBuilders_eq {proc : ProcSnippet}
    (h : (scanBuilders proc passes s).1.hasErrorOccurred = false) :
    scanBuilders proc passes s = (s, match passes.find? (wants proc) with
      | some pass => .matched pass (pass.testProc proc).message
      | none => .unmatched) := by
  induction passes with
  | nil => rfl
  | cons p passes ih =>
      rw [scanBuilders] at h ⊢
      by_cases hid : p.id = ID_DefaultBuilder
      · rw [if_pos hid] at h ⊢
        rw [ih h, List.find?_cons_of_neg (by simp [wants, hid])]
      · rw [if_neg hid] at h ⊢
        dsimp only at h ⊢
        by_cases herr : (s.report (p.testProc proc).errors).hasErrorOccurred
        · rw [if_pos herr] at h
          exact absurd h (by simp [herr])
        · have hself := DocState.report_eq_self (Bool.eq_false_of_not_eq_true herr)
          rw [if_neg herr] at h ⊢
          rw [hself] at h ⊢
          by_cases hm : (p.testProc proc).matched
          · rw [if_pos hm, List.find?_cons_of_pos (by simp [wants, hid, hm])]
          · rw [if_neg hm] at h ⊢
            rw [ih h, List.find?_cons_of_neg (by simp [wants, hm])]

/-- A scan that stops has seen an error. -/
theorem hasErrorOccurred_of_stopped {proc : ProcSnippet} {s' : DocState D}
    (h : scanBuilders proc passes s = (s', .stopped)) : s'.hasErrorOccurred = true := by
  by_contra hne
  have hok : (scanBuilders proc passes s).1.hasErrorOccurred = false := by
    rw [h]
    exact Bool.eq_false_of_not_eq_true hne
  have heq := scanBuilders_eq hok
  rw [h] at heq
  have hsnd := congrArg Prod.snd heq
  dsimp only at hsnd
  split at hsnd <;> exact nomatch hsnd

theorem appendBuilderPassTasks_eq
    (h : (appendBuilderPassTasks passes defaultBuilder entries s).1.hasErrorOccurred = false) :
    appendBuilderPassTasks passes defaultBuilder entries s =
      (s, entries.map (builderTask passes defaultBuilder)) := by
  induction entries generalizing s with
  | nil => rfl
  | cons e entries ih =>
      rw [appendBuilderPassTasks] at h ⊢
      rcases hscan : scanBuilders e.proc passes s with ⟨s', scan⟩
      rw [hscan] at h
      -- the error state behind the scan is the one at the end, so the scan reports none
      have hrest : scan ≠ .stopped →
          (appendBuilderPassTasks passes defaultBuilder entries s').1.hasErrorOccurred = false ∧
            (s', scan) = (s, match passes.find? (wants e.proc) with
              | some pass => .matched pass (pass.testProc e.proc).message
              | none => .unmatched) := by
        intro hscan'
        have hok : (appendBuilderPassTasks passes defaultBuilder entries s').1.hasErrorOccurred =
            false := by
          cases scan with
          | stopped => exact absurd rfl hscan'
          | matched p message => exact h
          | unmatched => exact h
        refine ⟨hok, hscan ▸ scanBuilders_eq ?_⟩
        rw [ih hok] at hok
        rw [hscan]
        exact hok
      cases scan with
      | stopped => exact absurd h (by simp [hasErrorOccurred_of_stopped hscan])
      | matched p message =>
          obtain ⟨hok, heq⟩ := hrest (fun hstop => nomatch hstop)
          obtain ⟨rfl, hp⟩ := Prod.mk.injEq .. ▸ heq
          dsimp only
          rw [ih hok, List.map_cons, builderTask]
          split at hp
          next q hq => cases hp; rfl
          next => exact nomatch hp
      | unmatched =>
          obtain ⟨hok, heq⟩ := hrest (fun hstop => nomatch hstop)
          obtain ⟨rfl, hp⟩ := Prod.mk.injEq .. ▸ heq
          dsimp only
          rw [ih hok, List.map_cons, builderTask]
          split at hp
          next => exact nomatch hp
          next hq => rfl

theorem matchPasses_eq (h : (matchPasses e passes s).1.hasErrorOccurred = false) :
    matchPasses e passes s = (s, matchTasks passes e, false) := by
  induction passes with
  | nil => rfl
  | cons p passes ih =>
      rw [matchPasses] at h ⊢
      dsimp only at h ⊢
      by_cases herr : (s.report (p.testProc e.proc).errors).hasErrorOccurred
      · rw [if_pos herr] at h
        exact absurd h (by simp [herr])
      · have hself := DocState.report_eq_self (Bool.eq_false_of_not_eq_true herr)
        rw [if_neg herr] at h ⊢
        rw [hself] at h ⊢
        rw [ih h, matchTasks, matchTasks]
        by_cases hm : (p.testProc e.proc).matched
        · simp [hm]
        · simp [hm]

theorem appendMultiMatchPassTasks_eq
    (h : (appendMultiMatchPassTasks passes entries s).1.hasErrorOccurred = false) :
    appendMultiMatchPassTasks passes entries s = (s, entries.flatMap (matchTasks passes)) := by
  induction entries generalizing s with
  | nil => rfl
  | cons e entries ih =>
      rw [appendMultiMatchPassTasks] at h ⊢
      rcases hmatch : matchPasses e passes s with ⟨s', tasks, stop⟩
      rw [hmatch] at h
      have heq : s'.hasErrorOccurred = false →
          (s', tasks, stop) = (s, matchTasks passes e, false) :=
        fun hok => hmatch ▸ matchPasses_eq (by rw [hmatch]; exact hok)
      cases stop with
      | true => exact nomatch congrArg (fun r => r.2.2) (heq h)
      | false =>
          dsimp only at h
          have hok := h
          rw [ih h] at hok
          cases heq hok
          dsimp only
          rw [ih h, List.flatMap_cons]

/-- The tasks of a run that reports no error while it selects them. -/
theorem selectTasks_eq (h : (selectTasks registry entries s).1.hasErrorOccurred = false) :
    ∃ defaultBuilder ∈ passMap registry .builder, defaultBuilder.id = ID_DefaultBuilder ∧
      selectTasks registry entries s =
        (s, entries.map (builderTask (passMap registry .builder) defaultBuilder) ++
          entries.flatMap (matchTasks (passMap registry .guard)) ++
          entries.flatMap (matchTasks (passMap registry .misc))) := by
  rw [selectTasks] at h ⊢
  dsimp only at h ⊢
  split at h
  case h_1 => exact absurd h (by simp)
  case h_2 defaultBuilder hfind =>
    refine ⟨defaultBuilder, List.mem_of_find?_eq_some hfind, by simpa using List.find?_some hfind,
      ?_⟩
    split at h
    case isTrue herr => exact absurd h (by simp [herr])
    case isFalse hb =>
      rw [if_neg hb]
      rw [appendBuilderPassTasks_eq (Bool.eq_false_of_not_eq_true hb)] at h ⊢
      split at h
      case isTrue herr => exact absurd h (by simp [herr])
      case isFalse hg =>
        rw [if_neg hg]
        rw [appendMultiMatchPassTasks_eq (Bool.eq_false_of_not_eq_true hg)] at h ⊢
        split at h
        case isTrue herr => exact absurd h (by simp [herr])
        case isFalse hm =>
          rw [if_neg hm, appendMultiMatchPassTasks_eq (Bool.eq_false_of_not_eq_true hm)]

/-! ## Which hooks are called -/

variable {tasks : List (RunPassTask M D)}

/-- All hooks of a task list: the begin hooks, and the end hooks backwards. -/
def hookEvents (tasks : List (RunPassTask M D)) : List Event :=
  tasks.map (RunPassTask.event .beginHandleProc) ++
    tasks.reverse.map (RunPassTask.event .endHandleProc)

/-- The begin hooks that are called are the first ones, and all of them if no error is
reported; the tasks are then the same but for their messages. -/
theorem runBeginHooks_spec (tasks : List (RunPassTask M D)) (s : DocState D) :
    let r := runBeginHooks tasks s
    r.2.2 <+: tasks.map (RunPassTask.event .beginHandleProc) ∧
      (r.1.hasErrorOccurred = false →
        r.2.2 = tasks.map (RunPassTask.event .beginHandleProc) ∧
          ∀ hook, r.2.1.map (RunPassTask.event hook) = tasks.map (RunPassTask.event hook)) := by
  induction tasks generalizing s with
  | nil => exact ⟨List.prefix_rfl, fun _ => ⟨rfl, fun _ => rfl⟩⟩
  | cons task tasks ih =>
      rw [runBeginHooks]
      dsimp only
      split
      case isTrue herr =>
        exact ⟨by simp, fun hok => absurd hok (by simp [herr])⟩
      case isFalse herr =>
        obtain ⟨hpre, hall⟩ := ih (task.pass.beginHandleProc task.entry.proc task.message s).2
        refine ⟨(List.prefix_cons_inj _).mpr hpre, fun hok => ?_⟩
        obtain ⟨hevents, htasks⟩ := hall hok
        refine ⟨congrArg (_ :: ·) hevents, fun hook => ?_⟩
        rw [List.map_cons, List.map_cons, htasks hook]
        rfl

theorem runEndHooks_spec (tasks : List (RunPassTask M D)) (s : DocState D) :
    let r := runEndHooks tasks s
    r.2 <+: tasks.map (RunPassTask.event .endHandleProc) ∧
      (r.1.hasErrorOccurred = false → r.2 = tasks.map (RunPassTask.event .endHandleProc)) := by
  induction tasks generalizing s with
  | nil => exact ⟨List.prefix_rfl, fun _ => rfl⟩
  | cons task tasks ih =>
      rw [runEndHooks]
      dsimp only
      split
      case isTrue herr =>
        exact ⟨by simp, fun hok => absurd hok (by simp [herr])⟩
      case isFalse herr =>
        obtain ⟨hpre, hall⟩ := ih (task.pass.endHandleProc task.entry.proc task.message s).2
        exact ⟨(List.prefix_cons_inj _).mpr hpre, fun hok => congrArg (_ :: ·) (hall hok)⟩

/-- A run calls hooks of the tasks it has selected, in their order, and all of them if no
error is reported. -/
theorem trace_isPrefix (registry : List (Pass M D)) (entries : List Entry) (s : DocState D) :
    let r := endProcessDocument registry entries s
    ((selectTasks registry entries s).1.hasErrorOccurred = false ∨ r.2 = []) ∧
      r.2 <+: hookEvents (selectTasks registry entries s).2 ∧
      (r.1.hasErrorOccurred = false →
        (selectTasks registry entries s).1.hasErrorOccurred = false ∧
          r.2 = hookEvents (selectTasks registry entries s).2) := by
  rw [endProcessDocument]
  dsimp only
  split
  case isTrue herr =>
    exact ⟨.inr rfl, List.nil_prefix, fun hok => absurd hok (by simp [herr])⟩
  case isFalse hsel =>
    have hsel := Bool.eq_false_of_not_eq_true hsel
    refine ⟨.inl hsel, ?_⟩
    obtain ⟨hpre, hall⟩ := runBeginHooks_spec (selectTasks registry entries s).2
      (selectTasks registry entries s).1
    split
    case isTrue herr =>
      exact ⟨hpre.trans (List.prefix_append _ _), fun hok => absurd hok (by simp [herr])⟩
    case isFalse hbegun =>
      obtain ⟨hevents, htasks⟩ := hall (Bool.eq_false_of_not_eq_true hbegun)
      obtain ⟨hpre', hall'⟩ := runEndHooks_spec
        (runBeginHooks (selectTasks registry entries s).2
          (selectTasks registry entries s).1).2.1.reverse
        (runBeginHooks (selectTasks registry entries s).2
          (selectTasks registry entries s).1).1
      rw [List.map_reverse, htasks, ← List.map_reverse] at hpre' hall'
      rw [hevents, hookEvents]
      split
      case isTrue herr =>
        exact ⟨(List.prefix_append_right_inj _).mpr hpre', fun hok => absurd hok (by simp [herr])⟩
      case isFalse hended =>
        have heq := hall' (Bool.eq_false_of_not_eq_true hended)
        exact ⟨(List.prefix_append_right_inj _).mpr hpre',
          fun _ => ⟨hsel, congrArg (_ ++ ·) heq⟩⟩

/-! ## The order of the hooks -/

/-- A hook of a guard, or of a pass that comes after the guards, is preceded by the begin
hook of the builder of its proc. -/
def BuilderFirst (trace : List Event) : Prop :=
  ∀ before ev after, trace = before ++ ev :: after → ev.phase ≠ .builder →
    ∃ b ∈ before, b.hook = .beginHandleProc ∧ b.phase = .builder ∧
      b.entry.slot = ev.entry.slot

/-- The begin hooks of a proc are in the order of the phases. -/
def PhasesAscend (trace : List Event) : Prop :=
  trace.Pairwise fun a b => a.hook = .beginHandleProc → b.hook = .beginHandleProc →
    a.entry.slot = b.entry.slot → a.phase.index ≤ b.phase.index

variable {trace trace' : List Event}

theorem BuilderFirst.of_isPrefix (h : BuilderFirst trace') (hpre : trace <+: trace') :
    BuilderFirst trace := by
  obtain ⟨rest, rfl⟩ := hpre
  rintro before ev after rfl hphase
  exact h before ev (after ++ rest) (by simp) hphase

theorem PhasesAscend.of_isPrefix (h : PhasesAscend trace') (hpre : trace <+: trace') :
    PhasesAscend trace :=
  List.Pairwise.sublist hpre.sublist h

theorem mem_hookEvents {ev : Event} (h : ev ∈ hookEvents tasks) :
    ∃ task ∈ tasks, ∃ hook, ev = task.event hook := by
  rw [hookEvents, List.mem_append, List.mem_map, List.mem_map] at h
  rcases h with ⟨task, hmem, rfl⟩ | ⟨task, hmem, rfl⟩
  · exact ⟨task, hmem, _, rfl⟩
  · exact ⟨task, List.mem_reverse.mp hmem, _, rfl⟩

theorem entry_builderTask : (builderTask passes defaultBuilder e).entry = e := by
  rw [builderTask]
  split <;> rfl

/-- The builder of a proc is the default one or one of the map. -/
theorem pass_builderTask_mem (h : defaultBuilder ∈ passes) :
    (builderTask passes defaultBuilder e).pass ∈ passes := by
  rw [builderTask]
  split
  next pass hfind => exact List.mem_of_find?_eq_some hfind
  next => exact h

theorem mem_matchTasks {task : RunPassTask M D} (h : task ∈ matchTasks passes e) :
    task.entry = e ∧ task.pass ∈ passes := by
  obtain ⟨pass, hpass, rfl⟩ := List.mem_map.mp h
  exact ⟨rfl, List.mem_of_mem_filter hpass⟩

/-- Each phase has its own part of the task list. -/
structure Staged (entries : List Entry) (builders guards miscs : List (RunPassTask M D)) :
    Prop where
  builders_phase : ∀ task ∈ builders, task.pass.phase = .builder
  guards_phase : ∀ task ∈ guards, task.pass.phase = .guard
  miscs_phase : ∀ task ∈ miscs, task.pass.phase = .misc
  builders_cover : ∀ e ∈ entries, ∃ task ∈ builders, task.entry = e
  guards_entry : ∀ task ∈ guards, task.entry ∈ entries
  miscs_entry : ∀ task ∈ miscs, task.entry ∈ entries

theorem staged_of_mem (hdefault : defaultBuilder ∈ passMap registry .builder) :
    Staged entries (entries.map (builderTask (passMap registry .builder) defaultBuilder))
      (entries.flatMap (matchTasks (passMap registry .guard)))
      (entries.flatMap (matchTasks (passMap registry .misc))) := by
  have hmulti : ∀ (phase : Phase) (task : RunPassTask M D),
      task ∈ entries.flatMap (matchTasks (passMap registry phase)) →
        task.pass.phase = phase ∧ task.entry ∈ entries := by
    intro phase task htask
    obtain ⟨e, he, hmem⟩ := List.mem_flatMap.mp htask
    obtain ⟨hentry, hpass⟩ := mem_matchTasks hmem
    exact ⟨(phase_of_mem_passMap hpass).2, hentry ▸ he⟩
  constructor
  case builders_phase =>
    intro task htask
    obtain ⟨e, -, rfl⟩ := List.mem_map.mp htask
    exact (phase_of_mem_passMap (pass_builderTask_mem hdefault)).2
  case builders_cover =>
    intro e he
    exact ⟨_, List.mem_map_of_mem he, entry_builderTask⟩
  case guards_phase => exact fun task htask => (hmulti _ task htask).1
  case miscs_phase => exact fun task htask => (hmulti _ task htask).1
  case guards_entry => exact fun task htask => (hmulti _ task htask).2
  case miscs_entry => exact fun task htask => (hmulti _ task htask).2

variable {builders guards miscs : List (RunPassTask M D)}

theorem Staged.builderFirst (h : Staged entries builders guards miscs) :
    BuilderFirst (hookEvents (builders ++ guards ++ miscs)) := by
  intro before ev after heq hphase
  obtain ⟨task, htask, hook, rfl⟩ :=
    mem_hookEvents (heq ▸ List.mem_append_right before List.mem_cons_self)
  have hentry : task.entry ∈ entries := by
    rcases List.mem_append.mp htask with htask | htask
    · rcases List.mem_append.mp htask with htask | htask
      · exact absurd (h.builders_phase task htask) hphase
      · exact h.guards_entry task htask
    · exact h.miscs_entry task htask
  obtain ⟨b, hb, hbe⟩ := h.builders_cover _ hentry
  -- the begin hooks of the builders are all in front of the event
  have hfront : builders.map (RunPassTask.event .beginHandleProc) <+: before := by
    rw [hookEvents, List.map_append, List.map_append, List.append_assoc,
      List.append_assoc] at heq
    rcases List.append_eq_append_iff.mp heq with ⟨mid, hbefore, -⟩ | ⟨mid, hbuilders, hmid⟩
    · exact ⟨mid, hbefore.symm⟩
    · cases mid with
      | nil => rw [hbuilders, List.append_nil]
      | cons ev' mid =>
          have hmem : task.event hook ∈ builders.map (RunPassTask.event .beginHandleProc) := by
            rw [hbuilders, (List.cons.inj hmid).1]
            simp
          obtain ⟨t, ht, hte⟩ := List.mem_map.mp hmem
          exact absurd (congrArg Event.phase hte ▸ h.builders_phase t ht) hphase
  exact ⟨b.event .beginHandleProc, hfront.subset (List.mem_map_of_mem hb), rfl,
    h.builders_phase b hb, congrArg Entry.slot hbe⟩

theorem Staged.phasesAscend (h : Staged entries builders guards miscs) :
    PhasesAscend (hookEvents (builders ++ guards ++ miscs)) := by
  have hindex : (builders ++ guards ++ miscs).Pairwise
      fun t t' => t.pass.phase.index ≤ t'.pass.phase.index := by
    have hconst : ∀ {l : List (RunPassTask M D)} {phase : Phase},
        (∀ t ∈ l, t.pass.phase = phase) →
          l.Pairwise fun t t' => t.pass.phase.index ≤ t'.pass.phase.index := by
      intro l phase hl
      refine List.Pairwise.imp_of_mem (R := fun _ _ => True) (fun ha hb _ => ?_)
        (List.pairwise_of_forall fun _ _ => trivial)
      rw [hl _ ha, hl _ hb]
    rw [List.pairwise_append, List.pairwise_append]
    refine ⟨⟨hconst h.builders_phase, hconst h.guards_phase, fun t ht t' ht' => ?_⟩,
      hconst h.miscs_phase, fun t ht t' ht' => ?_⟩
    · rw [h.builders_phase t ht, h.guards_phase t' ht']
      exact Nat.zero_le _
    · rw [h.miscs_phase t' ht']
      rcases List.mem_append.mp ht with ht | ht
      · rw [h.builders_phase t ht]
        exact Nat.zero_le _
      · rw [h.guards_phase t ht]
        exact Nat.le_succ _
  rw [PhasesAscend, hookEvents, List.pairwise_append]
  refine ⟨?_, ?_, ?_⟩
  · exact List.pairwise_map.mpr (hindex.imp fun hle _ _ _ => hle)
  · refine List.pairwise_map.mpr (List.pairwise_of_forall fun t t' hhook => nomatch hhook)
  · intro a _ b hb _ hhook
    obtain ⟨t, -, rfl⟩ := List.mem_map.mp hb
    exact nomatch hhook

/-- In every run, also one that an error stops, the hooks of a proc are in order. -/
theorem hooks_in_order (registry : List (Pass M D)) (entries : List Entry) (s : DocState D) :
    BuilderFirst (endProcessDocument registry entries s).2 ∧
      PhasesAscend (endProcessDocument registry entries s).2 := by
  obtain ⟨hsel | hnil, hpre, -⟩ := trace_isPrefix registry entries s
  · obtain ⟨defaultBuilder, hmem, -, heq⟩ := selectTasks_eq hsel
    rw [heq] at hpre
    have hstaged : Staged entries _ _ _ := staged_of_mem hmem
    exact ⟨hstaged.builderFirst.of_isPrefix hpre, hstaged.phasesAscend.of_isPrefix hpre⟩
  · rw [hnil]
    exact ⟨fun before ev after h => by simp at h, List.Pairwise.nil⟩

end Lorelei.TLC
