import Mathlib.Data.List.Forall2
import Mathlib.Logic.Function.Basic

/-!
# Environments

A finite environment as a function from names, the parameters of a call bound in it, and
what reading a list of names gives.
-/

namespace Lorelei.Environment

variable {α β : Type}

/-- The environment of a call: the parameters under their names. -/
def ofParams [DecidableEq α] (names : List α) (vals : List β) : α → Option β := fun name =>
  (names.zip vals).lookup name

/-- The names stand for the values, one by one. -/
def Binds (env : α → Option β) (names : List α) (vals : List β) : Prop :=
  List.Forall₂ (fun name val => env name = some val) names vals

theorem mapM_eq_some_iff {f : α → Option β} {xs : List α} {ys : List β} :
    xs.mapM f = some ys ↔ List.Forall₂ (fun x y => f x = some y) xs ys := by
  induction xs generalizing ys with
  | nil => simp [eq_comm]
  | cons x xs ih =>
      cases ys with
      | nil => simp [List.mapM_cons, Option.bind_eq_some_iff]
      | cons y ys =>
          simp only [List.mapM_cons, Option.bind_eq_bind, Option.bind_eq_some_iff,
            Option.pure_def, Option.some.injEq, List.cons.injEq, List.forall₂_cons, ih]
          constructor
          · rintro ⟨y', hy, ys', hys, rfl, rfl⟩
            exact ⟨hy, hys⟩
          · rintro ⟨hy, hys⟩
            exact ⟨y, hy, ys, hys, rfl, rfl⟩

theorem exists_mapM {f : α → Option β} {xs : List α} (h : ∀ x ∈ xs, ∃ y, f x = some y) :
    ∃ ys, xs.mapM f = some ys := by
  induction xs with
  | nil => exact ⟨[], rfl⟩
  | cons x xs ih =>
      obtain ⟨⟨y, hy⟩, hxs⟩ := List.forall_mem_cons.mp h
      obtain ⟨ys, hys⟩ := ih hxs
      exact ⟨y :: ys, mapM_eq_some_iff.mpr (.cons hy (mapM_eq_some_iff.mp hys))⟩

namespace Binds

variable {env : α → Option β} {names names' : List α} {vals vals' : List β} {name : α} {val : β}

theorem mapM_eq (h : Binds env names vals) : names.mapM env = some vals :=
  mapM_eq_some_iff.mpr h

theorem append (h : Binds env names vals) (h' : Binds env names' vals') :
    Binds env (names ++ names') (vals ++ vals') :=
  List.rel_append h h'

theorem getElem?_eq (h : Binds env names vals) {i : Nat} (hi : names[i]? = some name) :
    env name = vals[i]? := by
  induction h generalizing i with
  | nil => simp at hi
  | cons hhead _ ih =>
      cases i with
      | zero =>
          cases hi
          exact hhead
      | succ i => exact ih hi

theorem take (h : Binds env names vals) (n : Nat) : Binds env (names.take n) (vals.take n) :=
  List.forall₂_take n h

theorem congr {env' : α → Option β} (h : Binds env names vals)
    (heq : ∀ name ∈ names, env' name = env name) : Binds env' names vals := by
  induction h with
  | nil => exact .nil
  | cons hhead _ ih =>
      refine .cons ?_ (ih fun name hmem => heq name (List.mem_cons_of_mem _ hmem))
      rw [heq _ List.mem_cons_self, hhead]

/-- A new name leaves the others alone. -/
theorem update [DecidableEq α] (h : Binds env names vals) (hname : name ∉ names) (o : Option β) :
    Binds (Function.update env name o) names vals :=
  h.congr fun name' hmem => Function.update_of_ne (fun heq => hname (by rwa [← heq])) ..

end Binds

/-- Names that are distinct stand for the values they were bound to. -/
theorem binds_ofParams [DecidableEq α] {names : List α} {vals : List β} (hnodup : names.Nodup)
    (hlen : names.length = vals.length) : Binds (ofParams names vals) names vals := by
  induction names generalizing vals with
  | nil =>
      cases vals with
      | nil => exact .nil
      | cons val vals => simp at hlen
  | cons name names ih =>
      cases vals with
      | nil => simp at hlen
      | cons val vals =>
          obtain ⟨hname, hrest⟩ := List.nodup_cons.mp hnodup
          have henv : ofParams (name :: names) (val :: vals) =
              Function.update (ofParams names vals) name (some val) := by
            funext name'
            by_cases heq : name' = name
            · subst heq
              simp [ofParams]
            · have hbeq : (name' == name) = false := beq_false_of_ne heq
              simp [ofParams, List.lookup_cons, hbeq, heq]
          refine .cons (by simp [henv]) ?_
          rw [henv]
          exact (ih hrest (by simpa using hlen)).update hname (some val)

/-- A name that is not a parameter stands for nothing. -/
theorem ofParams_of_notMem [DecidableEq α] {names : List α} {vals : List β} {name : α}
    (h : name ∉ names) :
    ofParams names vals name = none := by
  rw [ofParams, List.lookup_eq_none_iff]
  rintro ⟨name', val⟩ hmem
  have hname' : name' ∈ names := (List.of_mem_zip hmem).1
  have hne : name ≠ name' := fun heq => h (heq ▸ hname')
  simpa using hne

end Lorelei.Environment
