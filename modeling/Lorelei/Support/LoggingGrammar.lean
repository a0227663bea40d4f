import Lorelei.Support.Logging

/-!
# The grammar of filter rules

What the documentation of `setFilterRules` says about a rules string, as relations between
texts and rules, and that the parser follows it.  The parser knows a few more words than
the documentation lists, so the relations are over a *vocabulary*: what names a level, and
what says that a rule enables.
-/

namespace Lorelei.Support

namespace LoggingGrammar

/-- The words of a grammar. -/
structure Vocabulary where
  levels : List (Str × Nat)
  Value : Str → Bool → Prop

/-- The words that the documentation lists. -/
def documented : Vocabulary where
  levels := [("trace".toList, Logger.trace), ("debug".toList, Logger.debug),
    ("success".toList, Logger.success), ("info".toList, Logger.information),
    ("warning".toList, Logger.warning), ("critical".toList, Logger.critical),
    ("fatal".toList, Logger.fatal)]
  Value text enable := text = "true".toList ∧ enable = true ∨ text = "false".toList ∧ enable = false

/-- The words that the parser knows: one more for a level, and a value in letters of
either case or as a digit. -/
def accepted : Vocabulary where
  levels := ("information".toList, Logger.information) :: documented.levels
  Value text enable :=
    str.toLower text ∈ ["true".toList, "1".toList] ∧ enable = true ∨
      str.toLower text ∈ ["false".toList, "0".toList] ∧ enable = false

/-- A category, with at most one star at each end.  A lone star is every category. -/
inductive Category : Str → MatchMode → Str → Prop
  | exact {text : Str} : text ≠ [] → '*' ∉ text → Category text .exact text
  | prefixed {text : Str} : text ≠ [] → '*' ∉ text → Category (text ++ ['*']) .prefixed text
  | suffixed {text : Str} : text ≠ [] → '*' ∉ text → Category ('*' :: text) .suffixed text
  | contains {text : Str} : '*' ∉ text → Category ('*' :: (text ++ ['*'])) .contains text
  | all : Category ['*'] .contains []

variable (voc : Vocabulary)

/-- The token after the last dot is a level if it names one. -/
inductive Selects : Str → Str → Nat → Prop
  | level {category token : Str} {level : Nat} : '.' ∉ token → (token, level) ∈ voc.levels →
      Selects (category ++ '.' :: token) category level
  | every {category : Str} :
      (∀ before token, category = before ++ '.' :: token → '.' ∉ token →
        ∀ level, (token, level) ∉ voc.levels) →
      Selects category category 0

/-- `category[.level] = value`, with blanks around the two sides. -/
inductive Reads : Str → LoggingRule → Prop
  | rule {left right category text : Str} {mode : MatchMode} {level : Nat} {enable : Bool} :
      '=' ∉ left → voc.Value (str.trim right) enable →
      Selects voc (str.trim left) category level → Category category mode text →
      Reads (left ++ '=' :: right) ⟨text, mode, level, enable⟩

/-- Each piece that reads as a rule contributes it. -/
inductive Contribute : List Str → List LoggingRule → Prop
  | nil : Contribute [] []
  | rule {piece : Str} {pieces : List Str} {rule : LoggingRule} {rules : List LoggingRule} :
      Reads voc piece rule → Contribute pieces rules → Contribute (piece :: pieces) (rule :: rules)
  | skip {piece : Str} {pieces : List Str} {rules : List LoggingRule} :
      (∀ rule, ¬ Reads voc piece rule) → Contribute pieces rules →
      Contribute (piece :: pieces) rules

/-- The first character that is not blank is a `#`. -/
def IsComment (s : Str) : Prop := (s.dropWhile str.isSpace).head? = some '#'

/-- What a line contributes. -/
inductive LineRules : Str → List LoggingRule → Prop
  | comment {line : Str} : IsComment line → LineRules line []
  | pieces {line : Str} {rules : List LoggingRule} : ¬ IsComment line →
      Contribute voc (line.splitOn ';') rules → LineRules line rules

/-- What the lines of a string contribute, in order. -/
inductive LinesRules : List Str → List LoggingRule → Prop
  | nil : LinesRules [] []
  | cons {line : Str} {lines : List Str} {rules rest : List LoggingRule} :
      LineRules voc line rules → LinesRules lines rest → LinesRules (line :: lines) (rules ++ rest)

/-- A `#` stands at the head of the line, or where there is no rule. -/
def PlainComments (line : Str) : Prop :=
  ∀ piece ∈ line.splitOn ';',
    (IsComment piece ↔ IsComment line) ∨ ∀ rule, ¬ Reads accepted piece rule

/-! ## Cutting -/

theorem modifyHead_nil_append (ts : List Str) : ts.modifyHead ([] ++ ·) = ts := by
  cases ts with
  | nil => rfl
  | cons t ts => rfl

theorem splitFrom_singleton (token s : Str) (c : Char) :
    str.splitFrom [c] token 0 s = (s.splitOn c).modifyHead (token ++ ·) := by
  induction s generalizing token with
  | nil => simp [str.splitFrom]
  | cons d s ih =>
    rw [List.splitOn_cons_eq_if_modifyHead, str.splitFrom]
    by_cases h : d = c
    · subst h
      have hfront : [d] <+: d :: s := List.cons_prefix_cons.mpr ⟨rfl, List.nil_prefix⟩
      rw [if_pos hfront, if_pos (beq_self_eq_true d), List.length_singleton, ih,
        modifyHead_nil_append, List.modifyHead_cons, List.append_nil]
    · have hfront : ¬ [c] <+: d :: s := by
        intro hpre
        exact h (List.cons_prefix_cons.mp hpre).1.symm
      simp [hfront, ih, h, List.modifyHead_modifyHead, Function.comp_def]

theorem split_singleton (s : Str) (c : Char) : str.split s [c] = s.splitOn c := by
  rw [str.split, splitFrom_singleton, modifyHead_nil_append]

/-! ## Trimming -/

theorem dropWhile_append_cons {p : Char → Bool} {c : Char} (hc : p c = false) (s t : Str) :
    (s ++ c :: t).dropWhile p = s.dropWhile p ++ c :: t := by
  induction s with
  | nil => simp [hc]
  | cons d s ih =>
    by_cases hd : p d
    · simp [hd, ih]
    · simp [hd]

theorem rdropWhile_append_cons {p : Char → Bool} {c : Char} (hc : p c = false) (s t : Str) :
    (s ++ c :: t).rdropWhile p = s ++ c :: t.rdropWhile p := by
  have hreverse : (s ++ c :: t).reverse = t.reverse ++ c :: s.reverse := by simp
  rw [List.rdropWhile, hreverse, dropWhile_append_cons hc, List.rdropWhile]
  simp

/-- Blanks around a text that is cut at a sign are blanks around the two sides. -/
theorem trim_append_cons {c : Char} (hc : str.isSpace c = false) (left right : Str) :
    str.trim (left ++ c :: right) =
      left.dropWhile str.isSpace ++ c :: right.rdropWhile str.isSpace := by
  rw [str.trim, dropWhile_append_cons hc, rdropWhile_append_cons hc]

theorem trim_dropWhile (s : Str) : str.trim (s.dropWhile str.isSpace) = str.trim s := by
  rw [str.trim, List.dropWhile_idempotent, str.trim]

theorem trim_of_dropWhile {c : Char} {s t : Str} (hs : s.dropWhile str.isSpace = c :: t) :
    str.isSpace c = false ∧ str.trim s = c :: t.rdropWhile str.isSpace := by
  have hc : str.isSpace c = false := by
    have hne : s.dropWhile str.isSpace ≠ [] := by simp [hs]
    have hhead := List.head_dropWhile_not str.isSpace hne
    simpa [hs] using hhead
  refine ⟨hc, ?_⟩
  rw [str.trim, hs, ← List.nil_append (c :: t), rdropWhile_append_cons hc, List.nil_append]

theorem head?_trim (s : Str) : (str.trim s).head? = (s.dropWhile str.isSpace).head? := by
  cases hs : s.dropWhile str.isSpace with
  | nil => rw [str.trim, hs, List.rdropWhile_nil]
  | cons c t => rw [(trim_of_dropWhile hs).2, List.head?_cons, List.head?_cons]

theorem trim_rdropWhile (s : Str) : str.trim (s.rdropWhile str.isSpace) = str.trim s := by
  cases hs : s.dropWhile str.isSpace with
  | nil =>
    have hblank : ∀ c ∈ s, str.isSpace c = true := List.dropWhile_eq_nil_iff.mp hs
    have hnil : s.rdropWhile str.isSpace = [] := List.rdropWhile_eq_nil_iff.mpr hblank
    rw [hnil, str.trim, str.trim, hs]
    rfl
  | cons c t =>
    obtain ⟨hc, hcut⟩ := trim_of_dropWhile hs
    have heq : s = s.takeWhile str.isSpace ++ c :: t := by
      rw [← hs, List.takeWhile_append_dropWhile]
    have hblank : (s.takeWhile str.isSpace).dropWhile str.isSpace = [] :=
      List.dropWhile_eq_nil_iff.mpr fun d hd => List.mem_takeWhile_imp hd
    rw [hcut, heq, rdropWhile_append_cons hc, trim_append_cons hc, hblank, List.nil_append,
      List.rdropWhile_idempotent]

/-! ## Categories -/

theorem foldWildcards_star_both {text : Str} :
    foldWildcards ('*' :: (text ++ ['*'])) = (text, .contains) := by
  have hlast : ('*' :: (text ++ ['*'])).getLast? = some '*' := by
    rw [← List.cons_append, List.getLast?_concat]
  simp [foldWildcards, hlast]

theorem foldWildcards_star_left {text : Str} (hne : text ≠ []) (hlast : text.getLast? ≠ some '*') :
    foldWildcards ('*' :: text) = (text, .suffixed) := by
  have hlast' : ('*' :: text).getLast? ≠ some '*' := by
    cases text with
    | nil => exact absurd rfl hne
    | cons c s => rwa [List.getLast?_cons_cons]
  simp [foldWildcards, hlast']

theorem foldWildcards_star_right {text : Str} (hne : text ≠ []) (hhead : text.head? ≠ some '*') :
    foldWildcards (text ++ ['*']) = (text, .prefixed) := by
  have hhead' : (text ++ ['*']).head? ≠ some '*' := by
    cases text with
    | nil => exact absurd rfl hne
    | cons c s => exact hhead
  have hright : (text ++ ['*']).getLast? = some '*' := List.getLast?_concat
  simp only [foldWildcards, hright, hhead']
  simp

theorem foldWildcards_plain {text : Str} (hhead : text.head? ≠ some '*')
    (hlast : text.getLast? ≠ some '*') : foldWildcards text = (text, .exact) := by
  simp [foldWildcards, hhead, hlast]

theorem head?_ne_of_notMem {text : Str} {c : Char} (h : c ∉ text) : text.head? ≠ some c :=
  fun heq => h (List.mem_of_head? heq)

theorem getLast?_ne_of_notMem {text : Str} {c : Char} (h : c ∉ text) : text.getLast? ≠ some c :=
  fun heq => h (List.mem_of_getLast? heq)

theorem category_iff {pattern text : Str} {mode : MatchMode} :
    Category pattern mode text ↔
      foldWildcards pattern = (text, mode) ∧ '*' ∉ text ∧ ¬ (mode = .exact ∧ text = []) := by
  constructor
  · intro h
    cases h with
    | exact hne hstar =>
      exact ⟨foldWildcards_plain (head?_ne_of_notMem hstar) (getLast?_ne_of_notMem hstar), hstar,
        fun h => hne h.2⟩
    | prefixed hne hstar =>
      exact ⟨foldWildcards_star_right hne (head?_ne_of_notMem hstar), hstar, by simp⟩
    | suffixed hne hstar =>
      exact ⟨foldWildcards_star_left hne (getLast?_ne_of_notMem hstar), hstar, by simp⟩
    | contains hstar => exact ⟨foldWildcards_star_both, hstar, by simp⟩
    | all => exact ⟨rfl, by simp, by simp⟩
  · rintro ⟨hfold, hstar, hexact⟩
    by_cases hleft : pattern.head? = some '*'
    · obtain ⟨rest, rfl⟩ : ∃ rest, pattern = '*' :: rest := by
        cases pattern with
        | nil => cases hleft
        | cons c rest => exact ⟨rest, by rw [Option.some.inj hleft]⟩
      by_cases hright : rest.getLast? = some '*'
      · obtain ⟨inner, rfl⟩ := List.getLast?_eq_some_iff.mp hright
        rw [foldWildcards_star_both] at hfold
        cases hfold
        exact .contains hstar
      · by_cases hne : rest = []
        · subst hne
          cases hfold
          exact .all
        · rw [foldWildcards_star_left hne hright] at hfold
          cases hfold
          exact .suffixed hne hstar
    · by_cases hright : pattern.getLast? = some '*'
      · obtain ⟨rest, rfl⟩ := List.getLast?_eq_some_iff.mp hright
        have hne : rest ≠ [] := by
          rintro rfl
          exact hleft rfl
        have hhead : rest.head? ≠ some '*' := by
          cases rest with
          | nil => simp
          | cons c s => exact hleft
        rw [foldWildcards_star_right hne hhead] at hfold
        cases hfold
        exact .prefixed hne hstar
      · rw [foldWildcards_plain hleft hright] at hfold
        cases hfold
        exact .exact (fun hnil => hexact ⟨rfl, hnil⟩) hstar

/-! ## Levels -/

theorem mem_levels_iff {token : Str} {level : Nat} :
    (token, level) ∈ accepted.levels ↔ levelFromToken token = level ∧ level ≠ 0 := by
  constructor
  · intro h
    simp only [accepted, documented, List.mem_cons, Prod.mk.injEq, List.not_mem_nil, or_false] at h
    rcases h with ⟨rfl, rfl⟩ | ⟨rfl, rfl⟩ | ⟨rfl, rfl⟩ | ⟨rfl, rfl⟩ | ⟨rfl, rfl⟩ | ⟨rfl, rfl⟩ |
      ⟨rfl, rfl⟩ | ⟨rfl, rfl⟩ <;> exact ⟨rfl, by decide⟩
  · rintro ⟨hlevel, hne⟩
    simp only [levelFromToken] at hlevel
    simp only [accepted, documented, List.mem_cons, Prod.mk.injEq]
    split_ifs at hlevel with h₁ h₂ h₃ h₄ h₅ h₆ h₇
    · exact .inr (.inl ⟨h₁, hlevel.symm⟩)
    · exact .inr (.inr (.inl ⟨h₂, hlevel.symm⟩))
    · exact .inr (.inr (.inr (.inl ⟨h₃, hlevel.symm⟩)))
    · rcases h₄ with h₄ | h₄
      · exact .inr (.inr (.inr (.inr (.inl ⟨h₄, hlevel.symm⟩))))
      · exact .inl ⟨h₄, hlevel.symm⟩
    · exact .inr (.inr (.inr (.inr (.inr (.inl ⟨h₅, hlevel.symm⟩)))))
    · exact .inr (.inr (.inr (.inr (.inr (.inr (.inl ⟨h₆, hlevel.symm⟩))))))
    · exact .inr (.inr (.inr (.inr (.inr (.inr (.inr (.inl ⟨h₇, hlevel.symm⟩)))))))
    · exact absurd hlevel.symm hne

/-- The last place of a character. -/
theorem exists_last_of_mem {c : Char} {s : Str} (h : c ∈ s) :
    ∃ before after, s = before ++ c :: after ∧ c ∉ after := by
  obtain ⟨after, before, heq, hnot⟩ := List.eq_append_cons_of_mem (List.mem_reverse.mpr h)
  refine ⟨before.reverse, after.reverse, ?_, by simpa using hnot⟩
  rw [← List.reverse_reverse s, heq]
  simp

theorem forall_mem_ne {c : Char} {s : Str} (h : c ∉ s) : ∀ d ∈ s, decide (d ≠ c) = true := by
  intro d hd
  refine decide_eq_true ?_
  rintro rfl
  exact h hd

theorem takeWhile_append_cons {c : Char} {before after : Str} (h : c ∉ before) :
    (before ++ c :: after).takeWhile (· ≠ c) = before := by
  rw [List.takeWhile_append_of_pos (forall_mem_ne h)]
  simp

theorem forall_mem_reverse_ne {c : Char} {s : Str} (h : c ∉ s) :
    ∀ d ∈ s.reverse, decide (d ≠ c) = true :=
  forall_mem_ne fun hmem => h (List.mem_reverse.mp hmem)

theorem rtakeWhile_append_cons {c : Char} {before after : Str} (h : c ∉ after) :
    (before ++ c :: after).rtakeWhile (· ≠ c) = after := by
  have hreverse : (before ++ c :: after).reverse = after.reverse ++ c :: before.reverse := by simp
  rw [List.rtakeWhile, hreverse, List.takeWhile_append_of_pos (forall_mem_reverse_ne h)]
  simp

theorem rdropWhile_append_cons_ne {c : Char} {before after : Str} (h : c ∉ after) :
    (before ++ c :: after).rdropWhile (· ≠ c) = before ++ [c] := by
  have hreverse : (before ++ c :: after).reverse = after.reverse ++ c :: before.reverse := by simp
  rw [List.rdropWhile, hreverse, List.dropWhile_append_of_pos (forall_mem_reverse_ne h)]
  simp

theorem selectLevel_dot {before token : Str} (h : '.' ∉ token) :
    selectLevel (before ++ '.' :: token) =
      if levelFromToken token = 0 then (before ++ '.' :: token, 0)
      else (before, levelFromToken token) := by
  simp only [selectLevel, rtakeWhile_append_cons h, rdropWhile_append_cons_ne h]
  by_cases hlevel : levelFromToken token = 0
  · simp [hlevel]
  · simp [hlevel]

theorem selectLevel_of_notMem {pattern : Str} (h : '.' ∉ pattern) :
    selectLevel pattern = (pattern, 0) := by
  simp [selectLevel, h]

theorem selects_iff {pattern category : Str} {level : Nat} :
    Selects accepted pattern category level ↔ selectLevel pattern = (category, level) := by
  constructor
  · intro h
    cases h with
    | level hdot hlevel =>
      obtain ⟨rfl, hne⟩ := mem_levels_iff.mp hlevel
      rw [selectLevel_dot hdot, if_neg hne]
    | every hnone =>
      by_cases hmem : '.' ∈ pattern
      · obtain ⟨before, token, rfl, hdot⟩ := exists_last_of_mem hmem
        rw [selectLevel_dot hdot, if_pos]
        by_contra hne
        exact hnone before token rfl hdot _ (mem_levels_iff.mpr ⟨rfl, hne⟩)
      · exact selectLevel_of_notMem hmem
  · intro h
    by_cases hmem : '.' ∈ pattern
    · obtain ⟨before, token, rfl, hdot⟩ := exists_last_of_mem hmem
      rw [selectLevel_dot hdot] at h
      split at h
      · rename_i hzero
        cases h
        refine .every fun before' token' heq hdot' level hlevel => ?_
        have htoken : token = token' := by
          rw [← rtakeWhile_append_cons hdot, heq, rtakeWhile_append_cons hdot']
        obtain ⟨rfl, hne⟩ := mem_levels_iff.mp hlevel
        exact hne (htoken ▸ hzero)
      · rename_i hne
        cases h
        exact .level hdot (mem_levels_iff.mpr ⟨rfl, hne⟩)
    · rw [selectLevel_of_notMem hmem] at h
      cases h
      refine .every fun before token heq _ level _ => hmem ?_
      simp [heq]

/-! ## Rules -/

theorem value_iff {text : Str} {enable : Bool} :
    accepted.Value text enable ↔ parseBool text = some enable := by
  simp only [accepted, parseBool, List.mem_cons, List.not_mem_nil, or_false]
  constructor
  · rintro (⟨h, rfl⟩ | ⟨h, rfl⟩)
    · rw [if_pos h]
    · have hfalse : ¬ (str.toLower text = "true".toList ∨ str.toLower text = "1".toList) := by
        rcases h with h | h <;> rw [h] <;> decide
      rw [if_neg hfalse, if_pos h]
  · intro h
    split at h
    · rename_i htrue
      cases h
      exact .inl ⟨htrue, rfl⟩
    · split at h
      · rename_i hfalse
        cases h
        exact .inr ⟨hfalse, rfl⟩
      · cases h

/-- What `parseRule` makes of the two sides of the sign. -/
def parseSides (pattern value : Str) : Option LoggingRule :=
  match parseBool value with
  | none => none
  | some enable =>
    if pattern = [] then none
    else
      let (pattern, level) := selectLevel pattern
      let (text, mode) := foldWildcards pattern
      if '*' ∈ text then none
      else if mode = .exact ∧ text = [] then none
      else some ⟨text, mode, level, enable⟩

theorem not_category_nil {mode : MatchMode} {text : Str} : ¬ Category [] mode text := by
  intro h
  obtain ⟨hfold, -, hexact⟩ := category_iff.mp h
  cases hfold
  exact hexact ⟨rfl, rfl⟩

theorem parseSides_of_selectLevel {pattern value category text : Str} {level : Nat}
    {mode : MatchMode} {enable : Bool} (hvalue : parseBool value = some enable)
    (hselect : selectLevel pattern = (category, level))
    (hcategory : Category category mode text) :
    parseSides pattern value = some ⟨text, mode, level, enable⟩ := by
  obtain ⟨hfold, hstar, hexact⟩ := category_iff.mp hcategory
  have hne : pattern ≠ [] := by
    rintro rfl
    cases hselect
    exact not_category_nil hcategory
  simp only [parseSides, hvalue, hselect, hfold]
  rw [if_neg hne, if_neg hstar, if_neg hexact]

theorem selectLevel_of_parseSides {pattern value : Str} {rule : LoggingRule}
    (h : parseSides pattern value = some rule) :
    parseBool value = some rule.enable ∧ ∃ category,
      selectLevel pattern = (category, rule.level) ∧ Category category rule.mode rule.text := by
  simp only [parseSides] at h
  split at h
  · cases h
  · rename_i enable hvalue
    split_ifs at h with hnil hstar hexact
    cases h
    exact ⟨hvalue, (selectLevel pattern).1, rfl, category_iff.mpr ⟨rfl, hstar, hexact⟩⟩

theorem reads_iff {piece : Str} {rule : LoggingRule} :
    Reads accepted piece rule ↔ ∃ left right, piece = left ++ '=' :: right ∧ '=' ∉ left ∧
      parseSides (str.trim left) (str.trim right) = some rule := by
  constructor
  · intro h
    cases h with
    | rule hleft hvalue hselect hcategory =>
      exact ⟨_, _, rfl, hleft, parseSides_of_selectLevel (value_iff.mp hvalue)
        (selects_iff.mp hselect) hcategory⟩
  · rintro ⟨left, right, rfl, hleft, h⟩
    obtain ⟨hvalue, category, hselect, hcategory⟩ := selectLevel_of_parseSides h
    exact .rule hleft (value_iff.mpr hvalue) (selects_iff.mpr hselect) hcategory

theorem parseRule_equals {left right : Str} (h : '=' ∉ left) :
    parseRule (left ++ '=' :: right) = parseSides (str.trim left) (str.trim right) := by
  have hdrop : (left ++ '=' :: right).dropWhile (· ≠ '=') = '=' :: right := by
    rw [List.dropWhile_append_of_pos (forall_mem_ne h)]
    simp
  simp only [parseRule, takeWhile_append_cons h, hdrop, List.tail_cons]
  rw [if_neg (by simp)]
  rfl

theorem parseRule_trim {left right : Str} (h : '=' ∉ left) :
    parseRule (str.trim (left ++ '=' :: right)) = parseSides (str.trim left) (str.trim right) := by
  have hleft : '=' ∉ left.dropWhile str.isSpace :=
    fun hmem => h (List.dropWhile_subset _ hmem)
  rw [trim_append_cons (by rfl), parseRule_equals hleft, trim_dropWhile, trim_rdropWhile]

theorem mem_of_mem_trim {c : Char} {s : Str} (h : c ∈ str.trim s) : c ∈ s :=
  List.dropWhile_subset _ ((List.rdropWhile_prefix _ _).subset h)

theorem parseRule_trim_eq_some_iff {piece : Str} {rule : LoggingRule} :
    parseRule (str.trim piece) = some rule ↔ Reads accepted piece rule := by
  rw [reads_iff]
  constructor
  · intro h
    have hmem : '=' ∈ piece := by
      by_contra hnot
      have hnone : parseRule (str.trim piece) = none := by
        rw [parseRule, if_pos (fun hmem => hnot (mem_of_mem_trim hmem))]
      simp [hnone] at h
    obtain ⟨left, right, rfl, hleft⟩ := List.eq_append_cons_of_mem hmem
    exact ⟨left, right, rfl, hleft, (parseRule_trim hleft).symm.trans h⟩
  · rintro ⟨left, right, rfl, hleft, h⟩
    exact (parseRule_trim hleft).trans h

/-! ## Lines -/

/-- The inner loop of `parseRules`. -/
def parsePiece (rawEntry : Str) : Option LoggingRule :=
  let entry := str.trim rawEntry
  if entry = [] ∨ entry.head? = some '#' then none else parseRule entry

def parseLine (rawLine : Str) : List LoggingRule :=
  (str.split rawLine [';']).filterMap parsePiece

theorem parseRules_eq (rules : Str) :
    parseRules rules = (rules.splitOn '\n').flatMap parseLine := by
  rw [← split_singleton]
  rfl

/-- A piece that begins with `#` is left out, in whichever line it is. -/
theorem parsePiece_of_isComment {piece : Str} (h : IsComment piece) : parsePiece piece = none := by
  rw [parsePiece, if_pos (.inr ((head?_trim piece).trans h))]

theorem parsePiece_eq_some_iff {piece : Str} {rule : LoggingRule} (h : ¬ IsComment piece) :
    parsePiece piece = some rule ↔ Reads accepted piece rule := by
  rw [← parseRule_trim_eq_some_iff, parsePiece]
  split
  · rename_i hor
    rcases hor with hnil | hhead
    · rw [hnil]
      rfl
    · exact absurd ((head?_trim piece).symm.trans hhead) h
  · exact Iff.rfl

theorem parsePiece_eq_none {piece : Str} (h : ∀ rule, ¬ Reads accepted piece rule) :
    parsePiece piece = none := by
  by_cases hcomment : IsComment piece
  · exact parsePiece_of_isComment hcomment
  · rw [Option.eq_none_iff_forall_ne_some]
    intro rule hrule
    exact h rule ((parsePiece_eq_some_iff hcomment).mp hrule)

/-- The pieces of a line that is no comment. -/
theorem contribute_filterMap {pieces : List Str}
    (h : ∀ piece ∈ pieces, ¬ IsComment piece ∨ ∀ rule, ¬ Reads accepted piece rule) :
    Contribute accepted pieces (pieces.filterMap parsePiece) := by
  induction pieces with
  | nil => exact .nil
  | cons piece pieces ih =>
    obtain ⟨hpiece, hpieces⟩ := List.forall_mem_cons.mp h
    cases hparse : parsePiece piece with
    | none =>
      rw [List.filterMap_cons_none hparse]
      refine .skip (fun rule hreads => ?_) (ih hpieces)
      rcases hpiece with hcomment | hnone
      · rw [(parsePiece_eq_some_iff hcomment).mpr hreads] at hparse
        cases hparse
      · exact hnone rule hreads
    | some rule =>
      have hcomment : ¬ IsComment piece := by
        intro hcomment
        rw [parsePiece_of_isComment hcomment] at hparse
        cases hparse
      rw [List.filterMap_cons_some hparse]
      exact .rule ((parsePiece_eq_some_iff hcomment).mp hparse) (ih hpieces)

theorem lineRules_parseLine {line : Str} (h : PlainComments line) :
    LineRules accepted line (parseLine line) := by
  rw [parseLine, split_singleton]
  by_cases hcomment : IsComment line
  · have hnil : (line.splitOn ';').filterMap parsePiece = [] := by
      refine List.filterMap_eq_nil_iff.mpr fun piece hpiece => ?_
      rcases h piece hpiece with hiff | hnone
      · exact parsePiece_of_isComment (hiff.mpr hcomment)
      · exact parsePiece_eq_none hnone
    rw [hnil]
    exact .comment hcomment
  · refine .pieces hcomment (contribute_filterMap fun piece hpiece => ?_)
    exact (h piece hpiece).imp_left fun hiff hpiece => hcomment (hiff.mp hpiece)

/-! ## Installing -/

variable {Id : Type} [DecidableEq Id]

/-- `setFilterRules` installs what the lines of the string contribute, in order, and a line
contributes what the grammar says, unless a `#` stands before a rule within the line. -/
theorem setFilterRules_follows {w w' : LogWorld Id} {rules : Str}
    (h : LogWorld.Step w (.setFilterRules rules) w') :
    ∃ contributions : List (List LoggingRule), w'.rules = contributions.flatten ∧
      List.Forall₂ (fun line rules => PlainComments line → LineRules accepted line rules)
        (rules.splitOn '\n') contributions := by
  cases h with
  | setFilterRules _ hfiltered =>
    refine ⟨(rules.splitOn '\n').map parseLine, ?_, ?_⟩
    · rw [hfiltered.same.rules, ← List.flatMap_def]
      exact parseRules_eq rules
    · rw [List.forall₂_map_right_iff, List.forall₂_same]
      exact fun line _ hplain => lineRules_parseLine hplain

theorem setFilterRules_follows_infix : ∃ w : LogWorld Nat,
    w.rules = [⟨"io".toList, .contains, Logger.debug, false⟩] ∧
    ∃ contributions : List (List LoggingRule), w.rules = contributions.flatten ∧
      List.Forall₂ (fun line rules => PlainComments line → LineRules accepted line rules)
        ("# quiet\n*io*.debug = 0; io".toList.splitOn '\n') contributions :=
  ⟨_, rfl, setFilterRules_follows (w := LogWorld.initial)
    (.setFilterRules (.refl _) (.default rfl))⟩

/-! ## The documented words -/

theorem LinesRules.singleton {voc : Vocabulary} {line : Str} {rules : List LoggingRule}
    (h : LinesRules voc [line] rules) : LineRules voc line rules := by
  generalize hlines : [line] = lines at h
  cases h with
  | nil => cases hlines
  | cons hline hrest =>
    cases hlines
    cases hrest
    rwa [List.append_nil]

theorem Contribute.singleton {voc : Vocabulary} {piece : Str} {rule : LoggingRule}
    (h : Contribute voc [piece] [rule]) : Reads voc piece rule := by
  cases h with
  | rule hreads _ => exact hreads
  | skip _ hrest => cases hrest

theorem Reads.sides {voc : Vocabulary} {left right : Str} {rule : LoggingRule}
    (hleft : '=' ∉ left) (h : Reads voc (left ++ '=' :: right) rule) :
    voc.Value (str.trim right) rule.enable ∧ ∃ category,
      Selects voc (str.trim left) category rule.level := by
  generalize hpiece : left ++ '=' :: right = piece at h
  cases h with
  | @rule left' right' _ _ _ _ _ hleft' hvalue hselect _ =>
    have heq : left = left' := by
      rw [← takeWhile_append_cons hleft, hpiece, takeWhile_append_cons hleft']
    subst heq
    obtain rfl := (List.cons.inj (List.append_cancel_left hpiece)).2
    exact ⟨hvalue, _, hselect⟩

/-- A line that has one piece, and installs a rule. -/
theorem LinesRules.sides {voc : Vocabulary} {left right : Str} {rule : LoggingRule}
    (hleft : '=' ∉ left) (hpiece : ';' ∉ left ++ '=' :: right)
    (h : LinesRules voc [left ++ '=' :: right] [rule]) :
    voc.Value (str.trim right) rule.enable ∧ ∃ category,
      Selects voc (str.trim left) category rule.level := by
  cases h.singleton with
  | pieces _ hpieces =>
    rw [List.splitOn_eq_singleton hpiece] at hpieces
    exact hpieces.singleton.sides hleft

/-- The rules that the string installs are those of the documented grammar. -/
def FollowsDocumentation (rules : Str) : Prop :=
  ∀ w : LogWorld Nat, LogWorld.Step LogWorld.initial (.setFilterRules rules) w →
    LinesRules documented (rules.splitOn '\n') w.rules

theorem FollowsDocumentation.linesRules {rules : Str} (h : FollowsDocumentation rules) :
    LinesRules documented (rules.splitOn '\n') (parseRules rules) :=
  h { LogWorld.initial with filterRules := rules, rules := parseRules rules }
    (.setFilterRules (.refl _) (.default rfl))

/-- The parser knows two words that the documentation does not, and a `#` comments out the
text to the next semicolon, not the line. -/
theorem not_followsDocumentation :
    ¬ FollowsDocumentation "io = 1".toList ∧ ¬ FollowsDocumentation "io.information = true".toList ∧
      ¬ FollowsDocumentation "# quiet; io = false".toList := by
  refine ⟨fun h => ?_, fun h => ?_, fun h => ?_⟩
  · have hrules : LinesRules documented ["io ".toList ++ '=' :: " 1".toList]
      [⟨"io".toList, .exact, 0, true⟩] := h.linesRules
    obtain ⟨hvalue, -⟩ := hrules.sides (by decide) (by decide)
    rcases hvalue with ⟨hvalue, -⟩ | ⟨hvalue, -⟩ <;> exact absurd hvalue (by decide)
  · have hrules : LinesRules documented ["io.information ".toList ++ '=' :: " true".toList]
      [⟨"io".toList, .exact, Logger.information, true⟩] := h.linesRules
    obtain ⟨-, category, hselect⟩ := hrules.sides (by decide) (by decide)
    generalize hpattern : str.trim "io.information ".toList = pattern at hselect
    generalize hlevel : Logger.information = level at hselect
    cases hselect with
    | @level _ token _ hdot hmem =>
      have hlast : (category ++ '.' :: token).rtakeWhile (· ≠ '.') = token :=
        rtakeWhile_append_cons hdot
      have htoken : "information".toList = token := by
        rw [← hlast, ← hpattern]
        rfl
      subst htoken
      subst hlevel
      exact absurd hmem (by decide)
    | every => cases hlevel
  · have hrules : LinesRules documented ["# quiet; io = false".toList]
      [⟨"io".toList, .exact, 0, false⟩] := h.linesRules
    cases hrules.singleton with
    | pieces hcomment _ => exact hcomment rfl

end LoggingGrammar

end Lorelei.Support
