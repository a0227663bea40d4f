import Mathlib.Data.Finset.Sort
import Mathlib.Data.List.Sort
import Mathlib.Data.String.Basic

/-!
# The procs of a manifest

What `TLC generate` takes from a stat result and from the declarations that the target
headers of one side provide: the functions of each direction and the callbacks, in the
order of the generated `FOREACH` macros.  Both sides start from one stat result, but
each keeps the items its own headers declare.
-/

namespace Lorelei.TLC

inductive ProcKind where
  | function | callback
deriving DecidableEq, Repr

inductive ProcDirection where
  | guestToHost | hostToGuest
deriving DecidableEq, Repr

/-- The alias under which the bridge translation unit declares the `i`-th callback of a
stat result. -/
def bridgeAlias (i : Nat) (name : String) : String :=
  if name = "" then "PFN_UnknownCallback_" ++ toString (i + 1) else name

/-- The declarations of the bridge translation unit: signatures with their aliases. -/
def bridge (callbacks : List (String × String)) : List (String × String) :=
  callbacks.mapIdx fun i c => (c.1, bridgeAlias i c.2)

/-- A stat result: the functions of each direction, and the callbacks with their aliases
in the order of their signatures.  The compiler accepts the bridge translation unit of
the result, so that no alias is declared twice. -/
structure ManifestSummary where
  functions : ProcDirection → Finset String
  callbacks : List (String × String)
  sorted : (callbacks.map Prod.fst).Pairwise (· < ·)
  distinct : ((bridge callbacks).map Prod.snd).Nodup

/-- What the target headers of one side declare: functions with C linkage, and the types
that the signatures of callbacks are made of. -/
structure Headers where
  functions : Finset String
  signatures : Finset String

/-- A row of a `FOREACH` macro: the name its index is made of, and the text that
identifies the proc. -/
structure Proc where
  name : String
  key : String
deriving DecidableEq, Repr

/-! ## Filtering -/

/-- `namedCallbackBySignature`. -/
def namedCallbackBySignature (stat : ManifestSummary) (headers : Headers) :
    List (String × String) :=
  (bridge stat.callbacks).filter fun c => c.1 ∈ headers.signatures

/-- A callback is requested by its signature or by its alias. -/
def callbackRequested (stat : ManifestSummary) (c : String × String) : Bool :=
  stat.callbacks.any (fun entry => entry.1 = c.1) ||
    (c.2 ≠ "" && stat.callbacks.any fun entry => entry.2 = c.2)

/-- `m_callbackTypes`. -/
def callbackTypes (stat : ManifestSummary) (headers : Headers) : List (String × String) :=
  (namedCallbackBySignature stat headers).filter (callbackRequested stat)

/-- `m_functionDecls`. -/
def functionDecls (stat : ManifestSummary) (headers : Headers) (dir : ProcDirection) :
    Finset String :=
  headers.functions.filter (· ∈ stat.functions dir)

/-- `m_procs`, in the order of its keys. -/
def procs (stat : ManifestSummary) (headers : Headers) : ProcKind → ProcDirection → List Proc
  | .function, dir => (functionDecls stat headers dir).sort.map fun name => ⟨name, name⟩
  | .callback, _ =>
      ((callbackTypes stat headers).map fun c => (⟨c.2, c.1⟩ : Proc)).insertionSort
        fun p q => p.name ≤ q.name

/-! ## What the rows are -/

variable {stat : ManifestSummary} {headers : Headers} {kind : ProcKind} {dir : ProcDirection}

theorem map_fst_bridge (callbacks : List (String × String)) :
    (bridge callbacks).map Prod.fst = callbacks.map Prod.fst := by
  apply List.ext_getElem
  · simp [bridge]
  · intro i h h'
    simp [bridge]

/-- Everything the bridge declares is requested. -/
theorem callbackRequested_of_mem {c : String × String} (h : c ∈ bridge stat.callbacks) :
    callbackRequested stat c = true := by
  have hmem : c.1 ∈ stat.callbacks.map Prod.fst := by
    rw [← map_fst_bridge]
    exact List.mem_map_of_mem h
  obtain ⟨entry, hentry, heq⟩ := List.mem_map.mp hmem
  rw [callbackRequested, Bool.or_eq_true]
  exact .inl (List.any_eq_true.mpr ⟨entry, hentry, decide_eq_true heq⟩)

theorem callbackTypes_eq : callbackTypes stat headers = namedCallbackBySignature stat headers := by
  apply List.filter_eq_self.mpr
  intro c hc
  exact callbackRequested_of_mem (List.mem_of_mem_filter hc)

/-- The names by which one side may know procs. -/
def declared (stat : ManifestSummary) (headers : Headers) : ProcKind → ProcDirection → Set String
  | .function, dir => {name | name ∈ stat.functions dir ∧ name ∈ headers.functions}
  | .callback, _ => {name | ∃ signature, (signature, name) ∈ bridge stat.callbacks ∧
      signature ∈ headers.signatures}

theorem mem_procs_callback {p : Proc} : p ∈ procs stat headers .callback dir ↔
    (p.key, p.name) ∈ bridge stat.callbacks ∧ p.key ∈ headers.signatures := by
  rw [procs, List.mem_insertionSort, callbackTypes_eq, namedCallbackBySignature]
  constructor
  · intro h
    obtain ⟨c, hc, rfl⟩ := List.mem_map.mp h
    simpa using hc
  · rintro ⟨hmem, hkey⟩
    exact List.mem_map.mpr ⟨(p.key, p.name), by simp [hmem, hkey], rfl⟩

theorem mem_map_name_procs (name : String) :
    name ∈ (procs stat headers kind dir).map Proc.name ↔ name ∈ declared stat headers kind dir := by
  cases kind with
  | function => simp [procs, functionDecls, declared, and_comm]
  | callback =>
      rw [List.mem_map]
      constructor
      · rintro ⟨p, hp, rfl⟩
        exact ⟨p.key, mem_procs_callback.mp hp⟩
      · rintro ⟨signature, hmem, hsig⟩
        exact ⟨⟨name, signature⟩, mem_procs_callback.mpr ⟨hmem, hsig⟩, rfl⟩

/-- The rows are in the order of their names, and no name occurs twice. -/
theorem pairwise_name_procs : ((procs stat headers kind dir).map Proc.name).Pairwise (· < ·) := by
  cases kind with
  | function =>
      simp only [procs, List.map_map]
      exact (List.map_id _).symm ▸ (functionDecls stat headers dir).sortedLT_sort.pairwise
  | callback =>
      have hle : ((procs stat headers .callback dir).map Proc.name).Pairwise (· ≤ ·) := by
        rw [List.pairwise_map]
        exact List.pairwise_insertionSort (fun p q : Proc => p.name ≤ q.name) _
      have hnodup : ((procs stat headers .callback dir).map Proc.name).Nodup := by
        have hperm := (List.perm_insertionSort (fun p q : Proc => p.name ≤ q.name)
          ((callbackTypes stat headers).map fun c => (⟨c.2, c.1⟩ : Proc))).map Proc.name
        refine hperm.nodup_iff.mpr ?_
        rw [callbackTypes_eq, List.map_map]
        exact stat.distinct.sublist (List.filter_sublist.map Prod.snd)
      exact (hle.and hnodup).imp fun h => lt_of_le_of_ne h.1 h.2

/-- One name stands for one proc, whichever side it is on. -/
theorem key_eq_iff {headers' : Headers} {p q : Proc} (hp : p ∈ procs stat headers kind dir)
    (hq : q ∈ procs stat headers' kind dir) : p.key = q.key ↔ p.name = q.name := by
  cases kind with
  | function =>
      simp only [procs, List.mem_map] at hp hq
      obtain ⟨name, -, rfl⟩ := hp
      obtain ⟨name', -, rfl⟩ := hq
      rfl
  | callback =>
      have hp' := (mem_procs_callback.mp hp).1
      have hq' := (mem_procs_callback.mp hq).1
      have hsorted : ((bridge stat.callbacks).map Prod.fst).Nodup := by
        rw [map_fst_bridge]
        exact stat.sorted.imp ne_of_lt
      constructor
      · intro heq
        exact congrArg Prod.snd (List.inj_on_of_nodup_map hsorted hp' hq' heq)
      · intro heq
        exact congrArg Prod.fst (List.inj_on_of_nodup_map stat.distinct hp' hq' heq)

end Lorelei.TLC
