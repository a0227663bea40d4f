import Lorelei.ClangExtras.Rewriter
import Lorelei.HLR.Preprocess
import Lorelei.HLR.Stat

/-!
# Marking macros

`mark-macros` puts a pair of tags around the macros that a guard would have to go into, so
that `preprocess` finds them again and puts their expansions in their place. If the ranges
are apart and the file has no comment that starts like a tag, the pairs that are found are
the ranges that have been marked (`pairs_wrapped`), and only these ranges change.
-/

namespace Lorelei.HLR

open Support ClangExtras Occurrence

/-! ## The command -/

/-- What the source manager says of an expression: where it starts and ends, whether these
places are in macros, and the ranges of the expansions in the file. -/
structure MacroPosition where
  isInMainFile : Bool
  isBeginInMacro : Bool
  isEndInMacro : Bool
  isBeginAtStartOfMacro : Bool
  isEndAtEndOfMacro : Bool
  macroBeginExpansionRange : CharSourceRange
  fullExpansionRange : CharSourceRange

namespace MacroPosition

def isBeginAtMiddleOfMacro (e : MacroPosition) : Bool :=
  e.isBeginInMacro && !e.isBeginAtStartOfMacro

def isEndAtMiddleOfMacro (e : MacroPosition) : Bool := e.isEndInMacro && !e.isEndAtEndOfMacro

/-- Expressions that a macro has only a part of, or more than. -/
def isMarked (e : MacroPosition) : Bool :=
  e.isInMainFile && (e.isBeginInMacro || e.isEndInMacro) &&
    (e.isBeginAtMiddleOfMacro || e.isEndAtMiddleOfMacro)

end MacroPosition

/-- An expression with its type as it is printed. For a call the places are those of the
callee, and the full range is that of the call. -/
structure MacroExpr where
  type : Str
  position : MacroPosition

/-- A range between two tags. -/
def tagged (range : CharSourceRange) : RangePacker :=
  ⟨range, String.ofList macroBeginTag, String.ofList macroEndTag⟩

/-- The range that is marked for a call. -/
def callRange (stat : SourceStatistics) (CE : MacroExpr) : Option RangePacker :=
  if CE.type ∉ stat.callbackCheckGuardSignatures ∨ !CE.position.isMarked then none
  else if CE.position.isEndAtMiddleOfMacro then some (tagged CE.position.fullExpansionRange)
  else some (tagged CE.position.macroBeginExpansionRange)

/-- The range that is marked for a function that decays. -/
def decayRange (stat : SourceStatistics) (DRE : MacroExpr) : Option RangePacker :=
  if (stat.functionDecayGuardStats.find DRE.type).isNone ∨ !DRE.position.isMarked then none
  else some (tagged DRE.position.fullExpansionRange)

/-- The ranges that are inserted, in order. -/
def marks (stat : SourceStatistics) (calls decays : List MacroExpr) : List RangePacker :=
  calls.filterMap (callRange stat) ++ decays.filterMap (decayRange stat)

/-- The file after the command: it is written only if something is marked. -/
def markMacros (stat : SourceStatistics) (calls decays : List MacroExpr) (text : Str) : Str :=
  let insertions := RewriteRangePackerSet.insertAll (marks stat calls decays)
  if insertions.ranges = [] then text else ((Rewriter.ofText text).wrap insertions).write

/-! ## The pairs of tags -/

/-- How both tags start. -/
def commentMark : Str := "/*__".toList

theorem isFirst_begin (before : Str) (h : ¬ commentMark <:+: before) (after : Str) :
    IsFirst macroBeginTag before after (before ++ (macroBeginTag ++ after)) :=
  isFirst_of_mark commentMark (by decide) (by decide) h

theorem isFirst_end (before : Str) (h : ¬ commentMark <:+: before) (after : Str) :
    IsFirst macroEndTag before after (before ++ (macroEndTag ++ after)) :=
  isFirst_of_mark commentMark (by decide) (by decide) h

theorem pairs_nil (text : Str) (h : ¬ commentMark <:+: text) : Pairs text [] text := by
  refine .done fun lead _ rest _ hbegin => ?_
  have hmark : commentMark <:+: macroBeginTag := ⟨[], macroBeginTag.drop 4, by decide⟩
  have hinfix : macroBeginTag <:+: text :=
    ⟨lead, rest, by rw [hbegin.eq, List.append_assoc]⟩
  exact absurd (hmark.trans hinfix) h

/-- The pairs of tags around some ranges are these ranges. -/
theorem pairs_wrapped {pos : Nat} {ranges : List RangePacker} {text : Str}
    (htags : ∀ ins ∈ ranges, ins.textBefore.toList = macroBeginTag ∧
      ins.textAfter.toList = macroEndTag)
    (h : ¬ commentMark <:+: text) :
    Pairs (wrapped pos ranges text) (rangePieces pos ranges text).1
      (rangePieces pos ranges text).2 := by
  induction ranges generalizing pos text with
  | nil => exact pairs_nil _ h
  | cons ins ranges ih =>
      obtain ⟨hbefore, hafter⟩ := htags ins List.mem_cons_self
      have hsub {part : Str} (hpart : part <:+: text) : ¬ commentMark <:+: part :=
        fun hmark => h (hmark.trans hpart)
      rw [wrapped, rangePieces, hbefore, hafter]
      refine .pair (isFirst_begin _ (hsub (List.take_prefix _ _).isInfix) _)
        (isFirst_end _ (hsub ?_) _)
        (ih (fun q hq => htags q (List.mem_cons_of_mem ins hq)) (hsub ?_))
      · exact List.IsInfix.trans (List.take_prefix _ _).isInfix (List.drop_suffix _ _).isInfix
      · exact List.IsInfix.trans (List.drop_suffix _ _).isInfix (List.drop_suffix _ _).isInfix

/-! ## The two commands in a row -/

variable {stat : SourceStatistics} {calls decays : List MacroExpr} {text : Str}

theorem tags_marks : ∀ ins ∈ marks stat calls decays,
    ins.textBefore.toList = macroBeginTag ∧ ins.textAfter.toList = macroEndTag := by
  have htagged (range : CharSourceRange) : (tagged range).textBefore.toList = macroBeginTag ∧
      (tagged range).textAfter.toList = macroEndTag :=
    ⟨String.toList_ofList, String.toList_ofList⟩
  intro ins hins
  rcases List.mem_append.mp hins with hins | hins
  · obtain ⟨CE, -, hrange⟩ := List.mem_filterMap.mp hins
    rw [callRange] at hrange
    split at hrange
    next => cases hrange
    next =>
      split at hrange
      all_goals
        obtain rfl := Option.some.inj hrange
        exact htagged _
  · obtain ⟨DRE, -, hrange⟩ := List.mem_filterMap.mp hins
    rw [decayRange] at hrange
    split at hrange
    next => cases hrange
    next =>
      obtain rfl := Option.some.inj hrange
      exact htagged _

theorem markMacros_eq_wrapped
    (hapart : (RewriteRangePackerSet.insertAll (marks stat calls decays)).Apart)
    (hend : ∀ ins ∈ (RewriteRangePackerSet.insertAll (marks stat calls decays)).ranges,
      ins.range.getEnd ≤ text.length) :
    markMacros stat calls decays text =
      wrapped 0 (RewriteRangePackerSet.insertAll (marks stat calls decays)).ranges text := by
  rw [markMacros]
  split
  next hnil => rw [hnil, wrapped]
  next => exact Rewriter.write_wrap hapart.end_lt hend

theorem mem_substitute {pairs : List (Str × Str)} {texts : List Str} {tail : Str} {c : Char}
    (h : c ∈ tail) : c ∈ substitute pairs texts tail := by
  induction pairs generalizing texts with
  | nil => exact h
  | cons pair pairs ih =>
      exact List.mem_append_right _ (List.mem_append_right _ ih)

/-- The pieces put together are the text. -/
theorem substitute_rangePieces (pos : Nat) (ranges : List RangePacker) (text : Str) :
    substitute (rangePieces pos ranges text).1 ((rangePieces pos ranges text).1.map Prod.snd)
      (rangePieces pos ranges text).2 = text := by
  induction ranges generalizing pos text with
  | nil => rfl
  | cons ins ranges ih =>
      rw [rangePieces, List.map_cons, substitute, List.headD_cons, List.tail_cons, ih,
        List.take_append_drop, List.take_append_drop]

/-- A call in a macro that has more than the callee. -/
def macroCall : MacroExpr where
  type := "int (*)(int, int)".toList
  position :=
    { isInMainFile := true
      isBeginInMacro := true
      isEndInMacro := true
      isBeginAtStartOfMacro := true
      isEndAtEndOfMacro := false
      macroBeginExpansionRange := ⟨2, 8, by decide⟩
      fullExpansionRange := ⟨2, 8, by decide⟩ }

def macroCallStat : SourceStatistics := ⟨∅, {"int (*)(int, int)".toList}, .empty⟩

end Lorelei.HLR
