import Mathlib.Data.List.Perm.Basic
import Mathlib.Logic.Function.Basic
import Lorelei.Support.LoggingRule

/-!
# Log categories

`LogCategory` objects enter a global registry when they are constructed and leave it when
they are destroyed.  The registry runs its filter over a category that enters, and over
every category whenever the rules or the filter change.

A custom filter is code of the program that installs it.  It may do anything to the
levels of any category, and nothing is assumed about it.
-/

namespace Lorelei.Support

/-- `levelEnabled`. -/
abbrev LevelEnabled := Nat → Bool

/-- The filter that is installed. -/
inductive LogCategoryFilter where
  | default
  | custom
deriving DecidableEq, Repr

variable {Id : Type} [DecidableEq Id]

/-- The `LogCategory` objects that exist, by address, and the `LogRegistry`.  The name of
an object is null or the string it points to. -/
structure LogWorld (Id : Type) where
  name : Id → Option (Option Str)
  levelEnabled : Id → LevelEnabled
  categories : List Id
  filterRules : Str
  rules : List LoggingRule
  categoryFilter : LogCategoryFilter

namespace LogWorld

/-- Nothing is constructed yet. -/
def initial : LogWorld Id where
  name _ := none
  levelEnabled _ _ := false
  categories := []
  filterRules := []
  rules := []
  categoryFilter := .default

/-! ## The default filter -/

def setLevelEnabled (levelEnabled : LevelEnabled) (lv : Nat) (enabled : Bool) : LevelEnabled :=
  Function.update levelEnabled lv enabled

/-- A loop that sets the levels of a list. -/
def setLevels (levelEnabled : LevelEnabled) (lvs : List Nat) (enabled : Bool) : LevelEnabled :=
  lvs.foldl (fun e lv => setLevelEnabled e lv enabled) levelEnabled

/-- `defaultLogCategoryFilter`, on the levels of one category. -/
def defaultLogCategoryFilter (rules : List LoggingRule) (name : Option Str)
    (levelEnabled : LevelEnabled) : LevelEnabled :=
  let name := cString (name.getD [])
  rules.foldl
    (fun e rule =>
      if rule.matchesCategory name then
        setLevels e (Logger.levels.filter rule.appliesToLevel) rule.enable
      else e)
    (setLevels levelEnabled Logger.levels true)

/-- Running the default filter over one category. -/
def applyDefault (w : LogWorld Id) (id : Id) : LogWorld Id :=
  { w with
    levelEnabled := Function.update w.levelEnabled id
      (defaultLogCategoryFilter w.rules ((w.name id).getD none) (w.levelEnabled id)) }

/-- Running the installed filter over categories, in this order. -/
inductive Filtered (w : LogWorld Id) (order : List Id) : LogWorld Id → Prop
  | default : w.categoryFilter = .default → Filtered w order (order.foldl applyDefault w)
  | custom (levelEnabled : Id → LevelEnabled) :
      w.categoryFilter = .custom → Filtered w order { w with levelEnabled }

/-! ## The calls -/

inductive Call (Id : Type) where
  | construct (id : Id) (name : Option Str)
  | destroy (id : Id)
  | setLogFilter (filter : Option LogCategoryFilter)
  | setFilterRules (rules : Str)
  | setLevelEnabled (id : Id) (level : Nat) (enabled : Bool)

/-- `LogCategory::setFilterRules` and `LogCategory::setLogFilter`. -/
def Call.isSet : Call Id → Bool
  | .setLogFilter _ | .setFilterRules _ => true
  | _ => false

/-- The levels that the constructor writes with one store. -/
def allEnabled : LevelEnabled := fun _ => true

/-- One call.  The registry is a hash set, which is run over in any order. -/
inductive Step : LogWorld Id → Call Id → LogWorld Id → Prop
  | construct {w w' : LogWorld Id} {id : Id} {name : Option Str} :
      w.name id = none →
      Filtered
        { w with
          name := Function.update w.name id (some name)
          levelEnabled := Function.update w.levelEnabled id allEnabled
          categories := id :: w.categories } [id] w' →
      Step w (.construct id name) w'
  | destroy {w : LogWorld Id} {id : Id} {name : Option Str} :
      w.name id = some name →
      Step w (.destroy id)
        { w with
          name := Function.update w.name id none
          categories := w.categories.erase id }
  | setLogFilter {w w' : LogWorld Id} {filter : Option LogCategoryFilter} {order : List Id} :
      order.Perm w.categories →
      Filtered { w with categoryFilter := filter.getD .default } order w' →
      Step w (.setLogFilter filter) w'
  | setFilterRules {w w' : LogWorld Id} {rules : Str} {order : List Id} :
      order.Perm w.categories →
      Filtered { w with filterRules := rules, rules := parseRules rules } order w' →
      Step w (.setFilterRules rules) w'
  | setLevelEnabled {w : LogWorld Id} {id : Id} {name : Option Str} {level : Nat}
      {enabled : Bool} :
      w.name id = some name →
      Step w (.setLevelEnabled id level enabled)
        { w with
          levelEnabled := Function.update w.levelEnabled id
            (setLevelEnabled (w.levelEnabled id) level enabled) }

/-- A run from the start of the program. -/
inductive Run : List (Call Id) → LogWorld Id → Prop
  | nil : Run [] initial
  | snoc {calls : List (Call Id)} {call : Call Id} {w w' : LogWorld Id} :
      Run calls w → Step w call w' → Run (calls ++ [call]) w'

/-! ## What the default filter leaves -/

variable {w w' : LogWorld Id} {id : Id} {order : List Id} {lv : Nat}

theorem setLevels_apply (e : LevelEnabled) (lvs : List Nat) (enabled : Bool) (lv : Nat) :
    setLevels e lvs enabled lv = if lv ∈ lvs then enabled else e lv := by
  induction lvs generalizing e with
  | nil => rfl
  | cons l lvs ih =>
      show setLevels (setLevelEnabled e l enabled) lvs enabled lv = _
      rw [ih, setLevelEnabled]
      by_cases hmem : lv ∈ lvs
      · simp [hmem]
      · by_cases hl : lv = l
        · simp [hl]
        · simp [hmem, hl]

/-- Whatever the levels were, the rules decide. -/
theorem defaultLogCategoryFilter_apply (rules : List LoggingRule) (name : Option Str)
    (e : LevelEnabled) (hlv : lv ∈ Logger.levels) :
    defaultLogCategoryFilter rules name e lv = ruled rules (cString (name.getD [])) lv := by
  induction rules using List.reverseRecOn with
  | nil =>
      rw [defaultLogCategoryFilter, List.foldl_nil, setLevels_apply, if_pos hlv]
      rfl
  | append_singleton rules rule ih =>
      rw [defaultLogCategoryFilter, List.foldl_concat]
      change (if rule.matchesCategory (cString (name.getD [])) = true then
        setLevels (defaultLogCategoryFilter rules name e) _ rule.enable
        else defaultLogCategoryFilter rules name e) lv = _
      rw [ruled_concat]
      by_cases hname : rule.matchesCategory (cString (name.getD [])) = true
      · rw [if_pos hname, setLevels_apply, hname, ih]
        simp [List.mem_filter, hlv]
      · rw [if_neg hname, ih]
        simp [hname]

theorem levelEnabled_applyDefault (w : LogWorld Id) (id : Id) :
    (w.applyDefault id).levelEnabled id =
      defaultLogCategoryFilter w.rules ((w.name id).getD none) (w.levelEnabled id) :=
  Function.update_self _ _ _

/-- What running a filter leaves alone. -/
structure SameRegistry (w w' : LogWorld Id) : Prop where
  name : w'.name = w.name
  categories : w'.categories = w.categories
  filterRules : w'.filterRules = w.filterRules
  rules : w'.rules = w.rules
  categoryFilter : w'.categoryFilter = w.categoryFilter

theorem foldl_applyDefault (w : LogWorld Id) (order : List Id) :
    SameRegistry w (order.foldl applyDefault w) := by
  induction order generalizing w with
  | nil => exact ⟨rfl, rfl, rfl, rfl, rfl⟩
  | cons a order ih =>
      obtain ⟨hname, hcategories, hfilterRules, hrules, hfilter⟩ := ih (w.applyDefault a)
      exact ⟨hname, hcategories, hfilterRules, hrules, hfilter⟩

theorem Filtered.same (h : Filtered w order w') : SameRegistry w w' := by
  cases h with
  | default _ => exact foldl_applyDefault w order
  | custom levelEnabled _ => exact ⟨rfl, rfl, rfl, rfl, rfl⟩

/-- A category's levels are what the rules say. -/
def FollowsRules (w : LogWorld Id) (id : Id) : Prop :=
  ∀ name, w.name id = some name → ∀ lv ∈ Logger.levels,
    w.levelEnabled id lv = ruled w.rules (cString (name.getD [])) lv

theorem foldl_applyDefault_of_notMem (h : id ∉ order) :
    (order.foldl applyDefault w).levelEnabled id = w.levelEnabled id := by
  induction order generalizing w with
  | nil => rfl
  | cons a order ih =>
      rw [List.foldl_cons, ih fun hmem => h (List.mem_cons_of_mem _ hmem)]
      refine Function.update_of_ne ?_ _ _
      rintro rfl
      exact h List.mem_cons_self

theorem foldl_applyDefault_of_mem (h : id ∈ order) :
    FollowsRules (order.foldl applyDefault w) id := by
  induction order generalizing w with
  | nil => cases h
  | cons a order ih =>
      by_cases hmem : id ∈ order
      · exact ih hmem
      obtain rfl : id = a := by
        rcases List.mem_cons.mp h with hid | hid
        · exact hid
        · exact absurd hid hmem
      intro name hname lv hlv
      have hsame := foldl_applyDefault w (id :: order)
      rw [hsame.name] at hname
      rw [hsame.rules, List.foldl_cons, foldl_applyDefault_of_notMem hmem,
        levelEnabled_applyDefault, defaultLogCategoryFilter_apply _ _ _ hlv, hname]
      rfl

/-- The default filter settles the categories it is run over and leaves the others. -/
theorem Filtered.follows (h : Filtered w order w') (hfilter : w'.categoryFilter = .default)
    (hid : id ∈ order ∨ FollowsRules w id) : FollowsRules w' id := by
  cases h with
  | default _ =>
      by_cases hmem : id ∈ order
      · exact foldl_applyDefault_of_mem hmem
      intro name hname lv hlv
      rw [(foldl_applyDefault w order).name] at hname
      rw [foldl_applyDefault_of_notMem hmem, (foldl_applyDefault w order).rules]
      exact hid.resolve_left hmem name hname lv hlv
  | custom levelEnabled hcustom => exact absurd (hcustom.symm.trans hfilter) (by simp)

/-! ## What a call keeps -/

variable {call : Call Id} {calls : List (Call Id)}

/-- The registry holds the objects that exist, and the rules are those of its string. -/
structure Consistent (w : LogWorld Id) : Prop where
  nodup : w.categories.Nodup
  mem_iff : ∀ id, id ∈ w.categories ↔ w.name id ≠ none
  rules : w.rules = parseRules w.filterRules

omit [DecidableEq Id] in
theorem consistent_initial : Consistent (initial : LogWorld Id) where
  nodup := List.nodup_nil
  mem_iff id := by simp [initial]
  rules := rfl

omit [DecidableEq Id] in
theorem SameRegistry.consistent (hs : SameRegistry w w') (h : Consistent w) : Consistent w' where
  nodup := hs.categories ▸ h.nodup
  mem_iff id := by rw [hs.categories, hs.name]; exact h.mem_iff id
  rules := by rw [hs.rules, hs.filterRules]; exact h.rules

theorem Step.consistent (hstep : Step w call w') (h : Consistent w) : Consistent w' := by
  cases hstep with
  | @construct _ id name hid hf =>
      refine hf.same.consistent ⟨?_, fun a => ?_, h.rules⟩
      · exact List.nodup_cons.mpr ⟨fun hmem => (h.mem_iff id).mp hmem hid, h.nodup⟩
      · by_cases ha : a = id
        · simp [ha]
        · simp [ha, h.mem_iff a]
  | @destroy id name hid =>
      refine ⟨h.nodup.erase id, fun a => ?_, h.rules⟩
      by_cases ha : a = id
      · simp [ha, h.nodup.mem_erase_iff]
      · simp [ha, h.nodup.mem_erase_iff, h.mem_iff a]
  | setLogFilter _ hf => exact hf.same.consistent ⟨h.nodup, h.mem_iff, h.rules⟩
  | setFilterRules _ hf => exact hf.same.consistent ⟨h.nodup, h.mem_iff, rfl⟩
  | setLevelEnabled hid => exact ⟨h.nodup, h.mem_iff, h.rules⟩

/-- Every category that exists follows the rules. -/
def Settled (w : LogWorld Id) : Prop := ∀ id, FollowsRules w id

/-- Setting the rules or the filter settles every category, whatever happened before. -/
theorem Step.settled_of_isSet (hstep : Step w call w') (hset : call.isSet = true)
    (h : Consistent w) (hfilter : w'.categoryFilter = .default) : Settled w' := by
  intro id name hname
  have hmem {v : LogWorld Id} {order : List Id} (hf : Filtered v order w')
      (hperm : order.Perm w.categories) (hnames : v.name = w.name) : id ∈ order := by
    rw [hf.same.name, hnames] at hname
    exact hperm.mem_iff.mpr ((h.mem_iff id).mpr (by simp [hname]))
  cases hstep with
  | setLogFilter hperm hf => exact hf.follows hfilter (.inl (hmem hf hperm rfl)) name hname
  | setFilterRules hperm hf => exact hf.follows hfilter (.inl (hmem hf hperm rfl)) name hname
  | construct | destroy | setLevelEnabled => cases hset

/-- A category that comes is settled, and none is disturbed. -/
theorem Step.settled_of_construct {id : Id} {name : Option Str}
    (hstep : Step w (.construct id name) w') (hfilter : w'.categoryFilter = .default)
    (h : w.categoryFilter = .default → Settled w) : Settled w' := by
  cases hstep with
  | construct hid hf =>
      intro a
      refine hf.follows hfilter ?_
      by_cases ha : a = id
      · exact .inl (by simp [ha])
      · refine .inr fun name' hname' lv hlv => ?_
        have hold := h (hf.same.categoryFilter.symm.trans hfilter) a name'
        simp only [Function.update_of_ne ha] at hname' ⊢
        exact hold hname' lv hlv

theorem Step.settled_of_destroy {id : Id} (hstep : Step w (.destroy id) w')
    (hfilter : w'.categoryFilter = .default) (h : w.categoryFilter = .default → Settled w) :
    Settled w' := by
  cases hstep with
  | destroy hid =>
      intro a name hname
      by_cases ha : a = id
      · simp [ha] at hname
      · simp only [Function.update_of_ne ha] at hname
        exact h hfilter a name hname

/-! ## Runs -/

theorem Run.consistent (h : Run calls w) : Consistent w := by
  induction h with
  | nil => exact consistent_initial
  | snoc _ hstep ih => exact hstep.consistent ih

/-- The rules most recently passed to `setFilterRules`. -/
def currentRules (calls : List (Call Id)) : Str :=
  calls.foldl (fun current call => match call with
    | .setFilterRules rules => rules
    | _ => current) []

theorem Run.filterRules_eq (h : Run calls w) : w.filterRules = currentRules calls := by
  induction h with
  | nil => rfl
  | snoc _ hstep ih =>
      rw [currentRules, List.foldl_concat, ← currentRules]
      cases hstep with
      | construct _ hf => exact hf.same.filterRules.trans ih
      | destroy => exact ih
      | setLogFilter _ hf => exact hf.same.filterRules.trans ih
      | setFilterRules _ hf => exact hf.same.filterRules
      | setLevelEnabled => exact ih

/-- Every call of `setLevelEnabled` comes before the last `setFilterRules` or
`setLogFilter`. -/
def ManualBeforeSet (calls : List (Call Id)) : Prop :=
  ∀ pre post id lv enabled, calls = pre ++ .setLevelEnabled id lv enabled :: post →
    ∃ call ∈ post, call.isSet = true

omit [DecidableEq Id] in
theorem ManualBeforeSet.of_concat (h : ManualBeforeSet (calls ++ [call]))
    (hcall : call.isSet = false) : ManualBeforeSet calls := by
  rintro pre post id lv enabled rfl
  obtain ⟨set, hmem, hset⟩ := h pre (post ++ [call]) id lv enabled (by simp)
  rcases List.mem_append.mp hmem with hmem | hmem
  · exact ⟨set, hmem, hset⟩
  · rw [List.mem_singleton.mp hmem, hcall] at hset
    cases hset

theorem Run.settled (h : Run calls w) (hmanual : ManualBeforeSet calls)
    (hfilter : w.categoryFilter = .default) : Settled w := by
  induction h with
  | nil =>
      intro id name hname
      cases hname
  | @snoc calls call w w' hrun hstep ih =>
      cases hcall : call with
      | setLogFilter | setFilterRules =>
          exact hstep.settled_of_isSet (by rw [hcall]; rfl) hrun.consistent hfilter
      | construct id name =>
          subst hcall
          exact hstep.settled_of_construct hfilter (ih (hmanual.of_concat rfl))
      | destroy id =>
          subst hcall
          exact hstep.settled_of_destroy hfilter (ih (hmanual.of_concat rfl))
      | setLevelEnabled id lv enabled =>
          subst hcall
          obtain ⟨set, hmem, -⟩ := hmanual calls [] id lv enabled rfl
          cases hmem

end LogWorld

end Lorelei.Support
