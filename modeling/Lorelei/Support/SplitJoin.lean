import Lorelei.Lib.Occurrence
import Lorelei.Support.StringExtras

/-!
# Splitting and joining

`str::split` and `str::join` stand twice in the code, for views and for strings. The tokens of
a view are views into the same buffer, the tokens of a string are strings of their own.

`split` looks for the delimiter, takes what is in front of it, and looks again behind it. An
empty delimiter is found again at once, so that the loop is given a number of turns. With a
delimiter that is not empty every turn gets ahead: the loop comes to an end, and the tokens are
those of the scanner `str.split`, which `join` puts together again (`split_join`).
-/

namespace Lorelei.Support

open Occurrence

/-! ## Strings and views -/

/-- `std::string_view`: a part of a buffer. -/
structure StringView where
  data : Str
  start : Nat
  size : Nat
  bound : start + size ≤ data.length
deriving DecidableEq, Repr

/-- The characters that are viewed. -/
def StringView.text (s : StringView) : Str := (s.data.drop s.start).take s.size

/-- `find`: the first place, from `pos` on, at which the text stands; `none` for `npos`. -/
def str.find (s text : Str) (pos : Nat) : Option Nat :=
  if pos ≤ s.length then (cutAt text (s.drop pos)).map fun r => pos + r.1.length else none

/-- `std::string::substr`, with `none` for a count of `npos`. It throws if `pos` is behind the
string. -/
def str.substr (s : Str) (pos : Nat) (count : Option Nat) : Option Str :=
  if pos ≤ s.length then some ((s.drop pos).take (count.getD s.length)) else none

def StringView.find (s : StringView) (text : Str) (pos : Nat) : Option Nat :=
  str.find s.text text pos

/-- `std::string_view::substr`. -/
def StringView.substr (s : StringView) (pos : Nat) (count : Option Nat) : Option StringView :=
  if h : pos ≤ s.size then
    some ⟨s.data, s.start + pos, min (count.getD s.size) (s.size - pos),
      by have := s.bound; omega⟩
  else none

/-! ## `split` and `join` -/

/-- The loop of `split`, for at most so many turns, by the `find` and the `substr` of what is
split; `none` if it goes on or `substr` throws. -/
def splitLoop {τ : Type} (find : Nat → Option Nat) (substr : Nat → Option Nat → Option τ)
    (delimiterSize : Nat) :
    (turns start : Nat) → (end_ : Option Nat) → (tokens : List τ) → Option (List τ)
  | _, start, none, tokens => (substr start none).map fun token => tokens ++ [token]
  | 0, _, some _, _ => none
  | turns + 1, start, some end_, tokens =>
      (substr start (some (end_ - start))).bind fun token =>
        splitLoop find substr delimiterSize turns (end_ + delimiterSize)
          (find (end_ + delimiterSize)) (tokens ++ [token])

/-- `split(const std::string_view &, const std::string_view &)`. -/
def StringView.split (s : StringView) (delimiter : Str) (turns : Nat) : Option (List StringView) :=
  splitLoop (s.find delimiter) s.substr delimiter.length turns 0 (s.find delimiter 0) []

/-- `split(std::string &&, const std::string_view &)`. -/
def str.splitString (s delimiter : Str) (turns : Nat) : Option (List Str) :=
  splitLoop (str.find s delimiter) (str.substr s) delimiter.length turns 0 (str.find s delimiter 0)
    []

/-- The body of `join`: the items with the delimiter behind each, then the last one. -/
def joinItems {τ : Type} (text : τ → Str) (v : List τ) (delimiter : Str) : Str :=
  match v.getLast? with
  | none => []
  | some back => v.dropLast.foldl (fun res item => res ++ text item ++ delimiter) [] ++ text back

/-- `join(std::span<const std::string>, const std::string_view &)`. -/
def str.join (v : List Str) (delimiter : Str) : Str := joinItems id v delimiter

/-- `join(std::span<const std::string_view>, const std::string_view &)`. -/
def StringView.join (v : List StringView) (delimiter : Str) : Str :=
  joinItems StringView.text v delimiter

/-! ## Views show strings -/

@[simp] theorem StringView.length_text (s : StringView) : s.text.length = s.size := by
  have hbound := s.bound
  rw [StringView.text, List.length_take, List.length_drop]
  omega

theorem StringView.text_substr (s : StringView) (pos : Nat) (count : Option Nat) :
    (s.substr pos count).map StringView.text = str.substr s.text pos count := by
  rw [StringView.substr, str.substr, length_text]
  split
  next hpos =>
    rw [Option.map_some, StringView.text, StringView.text, ← List.drop_drop, List.drop_take,
      List.take_take]
  next => rfl

section Loop

variable {τ : Type} {find : Nat → Option Nat} {delimiterSize turns start : Nat}
  {end_ : Option Nat}

/-- The loop takes the same way over tokens of any kind. -/
theorem splitLoop_map {substr : Nat → Option Nat → Option τ}
    {substr' : Nat → Option Nat → Option Str} {text : τ → Str}
    (h : ∀ pos count, (substr pos count).map text = substr' pos count) (tokens : List τ) :
    (splitLoop find substr delimiterSize turns start end_ tokens).map (List.map text) =
      splitLoop find substr' delimiterSize turns start end_ (tokens.map text) := by
  have hlast : ∀ (turns start : Nat) (tokens : List τ),
      (splitLoop find substr delimiterSize turns start none tokens).map (List.map text) =
        splitLoop find substr' delimiterSize turns start none (tokens.map text) := by
    intro turns start tokens
    rw [splitLoop, splitLoop, ← h, Option.map_map, Option.map_map]
    simp [Function.comp_def]
  induction turns generalizing start end_ tokens with
  | zero =>
      cases end_ with
      | none => exact hlast 0 start tokens
      | some end_ => rfl
  | succ turns ih =>
      cases end_ with
      | none => exact hlast (turns + 1) start tokens
      | some end_ =>
          rw [splitLoop, splitLoop, ← h]
          cases substr start (some (end_ - start)) with
          | none => rfl
          | some token =>
              rw [Option.bind_some, Option.map_some, Option.bind_some, ih, List.map_append]
              rfl

/-- More turns do not change what is returned. -/
theorem splitLoop_mono {substr : Nat → Option Nat → Option τ} {tokens result : List τ}
    (h : splitLoop find substr delimiterSize turns start end_ tokens = some result)
    {more : Nat} (hmore : turns ≤ more) :
    splitLoop find substr delimiterSize more start end_ tokens = some result := by
  induction turns generalizing more start end_ tokens with
  | zero =>
      cases end_ with
      | none => cases more <;> exact h
      | some end_ => cases h
  | succ turns ih =>
      obtain ⟨more, rfl⟩ : ∃ k, more = k + 1 := ⟨more - 1, by omega⟩
      cases end_ with
      | none => exact h
      | some end_ =>
          rw [splitLoop] at h ⊢
          obtain ⟨token, htoken, hrest⟩ := Option.bind_eq_some_iff.mp h
          rw [htoken]
          exact ih hrest (by omega)

end Loop

theorem StringView.text_split (s : StringView) (delimiter : Str) (turns : Nat) :
    (s.split delimiter turns).map (List.map StringView.text) =
      str.splitString s.text delimiter turns :=
  splitLoop_map s.text_substr []

theorem joinItems_eq {τ : Type} (text : τ → Str) (v : List τ) (delimiter : Str) :
    joinItems text v delimiter = delimiter.intercalate (v.map text) := by
  have hloop : ∀ (v : List τ) (back : τ) (res : Str),
      v.foldl (fun res item => res ++ text item ++ delimiter) res ++ text back =
        res ++ delimiter.intercalate ((v ++ [back]).map text) := by
    intro v back
    induction v with
    | nil => simp
    | cons item v ih =>
        intro res
        have hne : (v ++ [back]).map text ≠ [] := by simp
        rw [List.foldl_cons, ih, List.cons_append, List.map_cons,
          List.intercalate_cons_of_ne_nil hne]
        simp
  rw [joinItems]
  cases hlast : v.getLast? with
  | none =>
      rw [List.getLast?_eq_none_iff.mp hlast]
      rfl
  | some back =>
      have hv : v.dropLast ++ [back] = v := List.dropLast_append_getLast? back hlast
      show v.dropLast.foldl _ [] ++ text back = _
      rw [hloop, List.nil_append, hv]

/-! ## The tokens -/

section Cutting

variable {s delimiter : Str} {tokens : List Str}

/-- From the start of a token on, the loop finds the tokens of what is left. -/
theorem splitLoop_of_cutInto (hdelimiter : delimiter ≠ []) {rest : Str}
    (h : CutInto delimiter rest tokens) {turns start : Nat} (hstart : start ≤ s.length)
    (hrest : s.drop start = rest) (hturns : rest.length ≤ turns) (done : List Str) :
    splitLoop (str.find s delimiter) (str.substr s) delimiter.length turns start
      (str.find s delimiter start) done = some (done ++ tokens) := by
  induction h generalizing turns start done with
  | @last rest hnot =>
      have hfind : str.find s delimiter start = none := by
        rw [str.find, if_pos hstart, hrest, cutAt_eq_none_iff.mpr hnot]
        rfl
      have hlast : str.substr s start none = some rest := by
        rw [str.substr, if_pos hstart, hrest, Option.getD_none, List.take_of_length_le]
        rw [← hrest, List.length_drop]
        omega
      rw [hfind, splitLoop, hlast]
      rfl
  | @cut rest before after tokens hfirst _ ih =>
      have hlen := congrArg List.length hfirst.eq
      have hpos := List.length_pos_iff.mpr hdelimiter
      rw [List.length_append, List.length_append] at hlen
      have hdrop := congrArg List.length hrest
      rw [List.length_drop] at hdrop
      have hfind : str.find s delimiter start = some (start + before.length) := by
        rw [str.find, if_pos hstart, hrest, cutAt_eq_some_iff.mpr hfirst]
        rfl
      have htoken : str.substr s start (some (start + before.length - start)) = some before := by
        rw [str.substr, if_pos hstart, hrest, Nat.add_sub_cancel_left, Option.getD_some, hfirst.eq,
          List.take_left]
      have hafter : s.drop (start + before.length + delimiter.length) = after := by
        rw [Nat.add_assoc, ← List.drop_drop, hrest, hfirst.eq, ← List.append_assoc,
          ← List.length_append, List.drop_left]
      obtain ⟨turns, rfl⟩ : ∃ k, turns = k + 1 := ⟨turns - 1, by omega⟩
      rw [hfind, splitLoop, htoken, Option.bind_some, ih (by omega) hafter (by omega)]
      simp

/-- What belongs to a delimiter is skipped. -/
theorem splitFrom_skip (token : Str) (skip : Nat) (s : Str) :
    str.splitFrom delimiter token skip s = str.splitFrom delimiter token 0 (s.drop skip) := by
  induction skip generalizing s with
  | zero => rfl
  | succ skip ih =>
      cases s with
      | nil => cases skip <;> rfl
      | cons c s => exact ih s

/-- The scanner cuts at the first delimiter. -/
theorem splitFrom_of_isFirst {before after : Str} (hdelimiter : delimiter ≠ [])
    (h : IsFirst delimiter before after s) (token : Str) :
    str.splitFrom delimiter token 0 s =
      (token ++ before) :: str.splitFrom delimiter [] 0 after := by
  induction s generalizing before token with
  | nil =>
      obtain ⟨-, hrest⟩ := List.append_eq_nil_iff.mp h.eq.symm
      exact absurd (List.append_eq_nil_iff.mp hrest).1 hdelimiter
  | cons c s ih =>
      rw [str.splitFrom]
      split
      next hc =>
        obtain ⟨rest, hrest⟩ := hc
        obtain ⟨rfl, rfl⟩ := h.unique (hrest ▸ isFirst_nil)
        obtain ⟨d, delimiter, rfl⟩ := List.exists_cons_of_ne_nil hdelimiter
        have hs : s = delimiter ++ after := (List.cons.inj hrest).2.symm
        rw [splitFrom_skip, List.length_cons, Nat.add_sub_cancel, hs, List.drop_left,
          List.append_nil]
      next hc =>
        obtain ⟨before, rfl⟩ := h.ne_nil hc
        rw [ih ((isFirst_cons hc).mp h), List.append_assoc]
        rfl

theorem splitFrom_of_forall_not (h : ∀ b a, ¬ IsFirst delimiter b a s) (token : Str) :
    str.splitFrom delimiter token 0 s = [token ++ s] := by
  induction s generalizing token with
  | nil => simp [str.splitFrom]
  | cons c s ih =>
      have hc : ¬ delimiter <+: c :: s := by
        rintro ⟨rest, hrest⟩
        exact h [] rest (hrest ▸ isFirst_nil)
      have hrest : ∀ b a, ¬ IsFirst delimiter b a s := fun b a hfirst =>
        h (c :: b) a ((isFirst_cons hc).mpr hfirst)
      rw [str.splitFrom, if_neg hc, ih hrest]
      simp

/-- The scanner finds the tokens. -/
theorem cutInto_split (hdelimiter : delimiter ≠ []) (s : Str) :
    CutInto delimiter s (str.split s delimiter) := by
  induction hn : s.length using Nat.strongRecOn generalizing s with
  | ind n ih =>
      rw [str.split]
      cases hcut : cutAt delimiter s with
      | none =>
          have hnot := cutAt_eq_none_iff.mp hcut
          rw [splitFrom_of_forall_not hnot]
          exact .last hnot
      | some r =>
          have hfirst := cutAt_eq_some_iff.mp hcut
          have hlen := length_of_cutAt hcut
          have hpos := List.length_pos_iff.mpr hdelimiter
          rw [splitFrom_of_isFirst hdelimiter hfirst]
          exact .cut hfirst (ih r.2.length (by omega) r.2 rfl)

end Cutting

/-! ## Both ways -/

/-- With enough turns, the loop comes to an end with this result. -/
def Returns {α : Type} (run : Nat → Option α) (a : α) : Prop :=
  ∃ enough, ∀ turns, enough ≤ turns → run turns = some a

/-- Both copies of `split` return these tokens. -/
structure SplitsInto (s : StringView) (delimiter : Str) (tokens : List Str) : Prop where
  views : ∃ views, Returns (s.split delimiter) views ∧ views.map StringView.text = tokens
  strings : Returns (str.splitString s.text delimiter) tokens

/-- Both copies of `join` put these tokens together to `s`. -/
structure JoinsTo (tokens : List Str) (delimiter s : Str) : Prop where
  views : ∀ views, views.map StringView.text = tokens → StringView.join views delimiter = s
  strings : str.join tokens delimiter = s

theorem joinsTo_intercalate (tokens : List Str) (delimiter : Str) :
    JoinsTo tokens delimiter (delimiter.intercalate tokens) := by
  constructor
  · rintro views rfl
    exact joinItems_eq ..
  · rw [str.join, joinItems_eq, List.map_id]

theorem splitsInto_of_cutInto {s : StringView} {delimiter : Str} {tokens : List Str}
    (hdelimiter : delimiter ≠ []) (h : CutInto delimiter s.text tokens) :
    SplitsInto s delimiter tokens := by
  have hstrings : ∀ turns, s.text.length ≤ turns →
      str.splitString s.text delimiter turns = some tokens := fun turns hturns =>
    splitLoop_of_cutInto hdelimiter h (Nat.zero_le _) List.drop_zero hturns []
  have hviews := s.text_split delimiter s.text.length
  rw [hstrings _ le_rfl] at hviews
  obtain ⟨views, hsplit, htext⟩ := Option.map_eq_some_iff.mp hviews
  exact ⟨⟨views, ⟨_, fun turns => splitLoop_mono hsplit⟩, htext⟩, _, hstrings⟩

/-- The tokens of a string do not contain the delimiter, and are joined to the string.  Strings
without the one character that they are joined with are the tokens of the result. -/
theorem split_join :
    (∀ (s : StringView) (delimiter : Str), delimiter ≠ [] →
      SplitsInto s delimiter (str.split s.text delimiter) ∧
        JoinsTo (str.split s.text delimiter) delimiter s.text ∧
        ∀ token ∈ str.split s.text delimiter, ¬ delimiter <:+: token) ∧
    ∀ (delimiter : Char) (v : List Str), v ≠ [] → (∀ item ∈ v, delimiter ∉ item) →
      ∃ joined, JoinsTo v [delimiter] joined ∧
        ∀ s : StringView, s.text = joined → SplitsInto s [delimiter] v := by
  constructor
  · intro s delimiter hdelimiter
    have htokens := cutInto_split hdelimiter s.text
    have hjoins := joinsTo_intercalate (str.split s.text delimiter) delimiter
    rw [htokens.intercalate] at hjoins
    exact ⟨splitsInto_of_cutInto hdelimiter htokens, hjoins, htokens.not_infix hdelimiter⟩
  · intro delimiter v hv hitems
    refine ⟨_, joinsTo_intercalate v [delimiter], fun s hs => ?_⟩
    refine splitsInto_of_cutInto (List.cons_ne_nil _ _) ?_
    rw [hs]
    exact cutInto_intercalate hv hitems

/-- `a,,b` in the middle of a buffer. -/
def commas : StringView where
  data := "(a,,b)".toList
  start := 1
  size := 4
  bound := by decide

theorem split_join_commas :
    (SplitsInto commas [','] [['a'], [], ['b']] ∧
        JoinsTo [['a'], [], ['b']] [','] "a,,b".toList) ∧
      ∃ joined, JoinsTo [['a'], []] [','] joined ∧
        ∀ s : StringView, s.text = joined → SplitsInto s [','] [['a'], []] := by
  obtain ⟨hsplits, hjoins, -⟩ := split_join.1 commas [','] (List.cons_ne_nil _ _)
  exact ⟨⟨hsplits, hjoins⟩, split_join.2 ',' [['a'], []] (List.cons_ne_nil _ _) (by decide)⟩

end Lorelei.Support
