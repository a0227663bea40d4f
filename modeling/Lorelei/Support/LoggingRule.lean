import Lorelei.Support.StringExtras

/-!
# Log filter rules

The rules that a filter string stands for, and what a list of rules says of a category:
every level is enabled, and then the last rule that matches decides.
-/

namespace Lorelei.Support

/-! `Logger::Level`. -/
namespace Logger

def trace : Nat := 1
def debug : Nat := 2
def success : Nat := 3
def information : Nat := 4
def warning : Nat := 5
def critical : Nat := 6
def fatal : Nat := 7

/-- The levels of a loop from `Trace` to `Fatal`. -/
def levels : List Nat := [trace, debug, success, information, warning, critical, fatal]

end Logger

/-- `LoggingRule::MatchMode`. -/
inductive MatchMode where
  | exact
  | prefixed
  | suffixed
  | contains
deriving DecidableEq, Repr

/-- `LoggingRule`.  Level 0 stands for every level. -/
structure LoggingRule where
  text : Str
  mode : MatchMode
  level : Nat
  enable : Bool
deriving DecidableEq, Repr

namespace LoggingRule

def matchesCategory (rule : LoggingRule) (name : Str) : Bool :=
  match rule.mode with
  | .prefixed => rule.text <+: name
  | .suffixed => rule.text <:+ name
  | .contains => rule.text <:+: name
  | .exact => name = rule.text

def appliesToLevel (rule : LoggingRule) (lv : Nat) : Bool := rule.level = 0 || rule.level = lv

end LoggingRule

/-! ## Parsing -/

/-- The level that a token names, or 0. -/
def levelFromToken (token : Str) : Nat :=
  if token = "trace".toList then Logger.trace
  else if token = "debug".toList then Logger.debug
  else if token = "success".toList then Logger.success
  else if token = "info".toList ∨ token = "information".toList then Logger.information
  else if token = "warning".toList then Logger.warning
  else if token = "critical".toList then Logger.critical
  else if token = "fatal".toList then Logger.fatal
  else 0

def parseBool (value : Str) : Option Bool :=
  let v := str.toLower value
  if v = "true".toList ∨ v = "1".toList then some true
  else if v = "false".toList ∨ v = "0".toList then some false
  else none

/-- Takes a trailing level token off a pattern. -/
def selectLevel (pattern : Str) : Str × Nat :=
  let level := levelFromToken (pattern.rtakeWhile (· ≠ '.'))
  if '.' ∈ pattern ∧ level ≠ 0 then ((pattern.rdropWhile (· ≠ '.')).dropLast, level)
  else (pattern, 0)

/-- Folds a wildcard at each end of a pattern into the match mode. -/
def foldWildcards (pattern : Str) : Str × MatchMode :=
  let left := pattern.head? = some '*'
  let right := pattern.getLast? = some '*'
  let pattern := if left then pattern.tail else pattern
  let pattern := if right ∧ pattern ≠ [] then pattern.dropLast else pattern
  (pattern,
    if left ∧ right then .contains else if left then .suffixed else if right then .prefixed
    else .exact)

/-- `parseRule`. -/
def parseRule (line : Str) : Option LoggingRule :=
  if '=' ∉ line then none
  else
    let pattern := str.trim (line.takeWhile (· ≠ '='))
    match parseBool (str.trim (line.dropWhile (· ≠ '=')).tail) with
    | none => none
    | some enable =>
        if pattern = [] then none
        else
          let (pattern, level) := selectLevel pattern
          let (text, mode) := foldWildcards pattern
          if '*' ∈ text then none
          else if mode = .exact ∧ text = [] then none
          else some ⟨text, mode, level, enable⟩

/-- `parseRules`. -/
def parseRules (rules : Str) : List LoggingRule :=
  (str.split rules ['\n']).flatMap fun rawLine =>
    (str.split rawLine [';']).filterMap fun rawEntry =>
      let entry := str.trim rawEntry
      if entry = [] ∨ entry.head? = some '#' then none else parseRule entry

/-! ## What rules say -/

/-- The last rule that matches the category and the level decides. -/
def ruled (rules : List LoggingRule) (name : Str) (lv : Nat) : Bool :=
  ((rules.filter fun rule => rule.matchesCategory name && rule.appliesToLevel lv).getLast?.map
    LoggingRule.enable).getD true

example : ruled (parseRules "*.debug = false; io=0 \n io.debug = TRUE".toList) "io".toList
    Logger.debug = true := by rfl

theorem ruled_concat (rules : List LoggingRule) (rule : LoggingRule) (name : Str) (lv : Nat) :
    ruled (rules ++ [rule]) name lv =
      if rule.matchesCategory name && rule.appliesToLevel lv then rule.enable
      else ruled rules name lv := by
  rw [ruled, List.filter_append]
  by_cases h : rule.matchesCategory name && rule.appliesToLevel lv
  · simp [h]
  · simp [h, ruled]

end Lorelei.Support
