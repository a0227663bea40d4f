import Lorelei.Json11.Documents
import Lorelei.DLCall.Overwrites

/-!
# What a caller sees of a document

A caller of `Json::parse` knows a failure by its message, so a failure has one
(`parse_error`). The database looks for the members of an object, and finds the last one
under a key (`find_objectOf`).
-/

namespace Lorelei.Json11

open Support DLCall LastNamed

variable {signed : Bool} {s r : Str} {α β : Type}

/-- A failure comes with a message. -/
def Explains (x : Except Str α) : Prop := ∀ e, x = .error e → e ≠ []

theorem explains_ok (a : α) : Explains (.ok a) := nofun

theorem explains_error {e : Str} (he : e ≠ []) : Explains (.error e : Except Str α) := by
  rintro _ ⟨⟩
  exact he

theorem Explains.bind {x : Except Str α} {f : α → Except Str β} (hx : Explains x)
    (hf : ∀ a, x = .ok a → Explains (f a)) : Explains (x >>= f) := by
  cases x with
  | error e => exact fun e' h => hx e' (by cases h; rfl)
  | ok a => exact hf a rfl

theorem Explains.map {x : Except Str α} (hx : Explains x) (f : α → β) : Explains (x.map f) := by
  cases x with
  | error e => exact fun e' h => hx e' (by cases h; rfl)
  | ok a => exact explains_ok (f a)

theorem Explains.ite {p : Prop} [Decidable p] {x y : Except Str α} (hx : p → Explains x)
    (hy : ¬ p → Explains y) : Explains (if p then x else y) := by
  split
  next h => exact hx h
  next h => exact hy h

theorem explains_text (text : String) (htext : text.toList ≠ []) (s : Str) :
    Explains (.error (text.toList ++ s) : Except Str α) :=
  explains_error (List.append_ne_nil_of_left_ne_nil htext s)

/-! ## Tokens -/

theorem explains_getNextToken (s : Str) : Explains (getNextToken s) := by
  rw [getNextToken]
  split
  · exact explains_error (by decide)
  · exact explains_ok _

theorem explains_parseString (signed : Bool) (last : Option Nat) (s : Str) :
    Explains (parseString signed last s) := by
  induction last, s using parseString.induct with
  | case1 => exact explains_error (by decide)
  | case2 => exact explains_ok _
  | case3 => exact explains_error (by decide)
  | case4 last a b c d s hpt =>
      rw [parseString, hpt]
      exact explains_text "bad \\u escape: " (by decide) _
  | case5 last a b c d s pt hpt lead hlead ih =>
      rw [parseString_unicode hpt, hlead]
      exact ih.map _
  | case6 last a b c d s pt hpt hlead ih =>
      rw [parseString_unicode hpt, hlead]
      exact ih.map _
  | case7 last s hshort =>
      rw [parseString]
      · exact explains_text "bad \\u escape: " (by decide) _
      · exact hshort
  | case8 last e s _ hu hnone =>
      rw [parseString, hnone]
      · exact explains_text "invalid escape character " (by decide) _
      · exact fun _ _ _ _ _ heq => absurd heq hu
      · exact hu
  | case9 last e s _ _ c hsome ih =>
      rw [parseString_simple hsome]
      exact ih.map _
  | case10 last c s hquote hnil _ _ hcons hcontrol =>
      rw [parseString, if_pos hcontrol, List.append_assoc]
      · exact explains_text "unescaped " (by decide) _
      all_goals assumption
  | case11 last c s hquote hnil _ _ hcons hcontrol ih =>
      rw [parseString, if_neg hcontrol]
      · exact ih.map _
      all_goals assumption

theorem explains_parseNumber (signed : Bool) (s : Str) : Explains (parseNumber signed s) := by
  refine .bind ?_ fun s _ => .bind ?_ fun s _ => .bind ?_ fun s _ => explains_ok _
  · refine .ite (fun _ => .ite (fun _ => ?_) fun _ => explains_ok _)
      fun _ => .ite (fun _ => explains_ok _) fun _ => ?_
    · exact explains_error (by decide)
    · rw [List.append_assoc]
      exact explains_text "invalid " (by decide) _
  · refine .ite (fun _ => .ite (fun _ => explains_ok _) fun _ => ?_) fun _ => explains_ok _
    exact explains_error (by decide)
  · refine .ite (fun _ => .ite (fun _ => explains_ok _) fun _ => ?_) fun _ => explains_ok _
    exact explains_error (by decide)

theorem explains_expect (expected : String) (res : Json) (s : Str) :
    Explains (expect expected res s) := by
  refine .ite (fun _ => explains_ok _) fun _ => ?_
  rw [List.append_assoc, List.append_assoc]
  exact explains_text "parse error: expected " (by decide) _

/-! ## Loops -/

variable {read : Str → Except Str (α × Str)} {Text : Str → α → Prop}

/-- A turn of the loop takes at least the comma, so the turns do not run out. -/
theorem explains_parseLoop {close : Char} {kind : String} (hreads : Reads read Text)
    (hread : ∀ s, Explains (read s)) (turns : Nat) (c : Char) (s : Str)
    (hturns : s.length < turns) :
    Explains (parseLoop signed close kind read turns (c :: s)) := by
  induction turns generalizing c s with
  | zero => exact absurd hturns (Nat.not_lt_zero _)
  | succ turns ih =>
      rw [parseLoop]
      refine .bind (hread _) ?_
      rintro ⟨a, s₁⟩ hitem
      refine .bind (explains_getNextToken _) ?_
      rintro ⟨ch, s₂⟩ htoken
      refine .ite (fun _ => explains_ok _) fun _ => .ite (fun _ => ?_) fun _ => ?_
      · rw [List.append_assoc, List.append_assoc]
        exact explains_text "expected ',' in " (by decide) _
      · refine .bind (explains_getNextToken _) ?_
        rintro ⟨ch', s₃⟩ htoken'
        refine .bind (ih ch' s₃ ?_) fun _ _ => explains_ok _
        have hs : s₁.length ≤ s.length + 1 := by
          obtain ⟨b, t, -, -, heq⟩ := hreads.ok hitem
          have hlen := congrArg List.length heq
          simp only [List.length_append, List.length_cons] at hlen
          omega
        have h₂ := getNextToken_length htoken
        have h₃ := getNextToken_length htoken'
        omega

variable {value : Str → Except Str (Json × Str)} {JsonText : Str → Json → Prop}

theorem explains_parseMember (hvalue : ∀ s, Explains (value s)) (s : Str) :
    Explains (parseMember signed value s) := by
  refine .ite (fun _ => ?_) fun _ => .bind (explains_parseString _ _ _) fun _ _ =>
    .bind (explains_getNextToken _) fun _ _ => .ite (fun _ => ?_) fun _ =>
      .bind (hvalue _) fun _ _ => explains_ok _
  · exact explains_text "expected '\"' in object, got " (by decide) _
  · exact explains_text "expected ':' in object, got " (by decide) _

theorem explains_parseObject (hreads : Reads value JsonText) (hskip : SkipsBlank value)
    (hvalue : ∀ s, Explains (value s)) (s : Str) : Explains (parseObject signed value s) := by
  refine .bind (explains_getNextToken _) ?_
  rintro ⟨ch, s'⟩ -
  refine .ite (fun _ => explains_ok _) fun _ => .bind ?_ fun _ _ => explains_ok _
  exact explains_parseLoop (reads_parseMember signed hreads hskip) (explains_parseMember hvalue)
    _ _ _ (Nat.lt_succ_self _)

theorem explains_parseArray (hreads : Reads value JsonText) (hvalue : ∀ s, Explains (value s))
    (s : Str) : Explains (parseArray signed value s) := by
  refine .bind (explains_getNextToken _) ?_
  rintro ⟨ch, s'⟩ -
  refine .ite (fun _ => explains_ok _) fun _ => .bind ?_ fun _ _ => explains_ok _
  exact explains_parseLoop hreads hvalue _ _ _ (Nat.lt_succ_self _)

theorem explains_parseJson (signed : Bool) (levels : Nat) (s : Str) :
    Explains (parseJson signed levels s) := by
  induction levels generalizing s with
  | zero => exact explains_error (by decide)
  | succ levels ih =>
      have hreads := reads_parseJson signed levels
      refine .bind (explains_getNextToken _) ?_
      rintro ⟨ch, s'⟩ -
      refine .ite (fun _ => explains_parseNumber _ _) fun _ =>
        .ite (fun _ => explains_expect _ _ _) fun _ =>
        .ite (fun _ => explains_expect _ _ _) fun _ =>
        .ite (fun _ => explains_expect _ _ _) fun _ =>
        .ite (fun _ => (explains_parseString _ _ _).map _) fun _ =>
        .ite (fun _ => explains_parseObject hreads (skipsBlank_parseJson _ _) ih _) fun _ =>
        .ite (fun _ => explains_parseArray hreads ih _) fun _ => ?_
      exact explains_text "expected value, got " (by decide) _

theorem parse_error {text e : Str} (h : parse signed text = .error e) : e ≠ [] := by
  refine Explains.bind (explains_parseJson signed _ _) ?_ e h
  rintro ⟨v, s⟩ -
  dsimp only
  split
  · exact explains_ok _
  · exact explains_text "unexpected trailing " (by decide) _

/-- The value of the last member with this key. -/
def lastValue (members : List (Str × Json)) (key : String) : Option Json :=
  (members.filter fun member => member.1 = key.toList).getLast?.map Prod.snd

theorem find_foldl_setMember (members : List (Str × Json)) (key : String) :
    Json.find (members.foldl setMember []) key = lastValue members key := by
  refine congrArg (Option.map Prod.snd) ?_
  induction members using List.reverseRecOn with
  | nil => rfl
  | append_singleton members member ih =>
      rw [List.foldl_append, List.foldl_cons, List.foldl_nil, setMember,
        SortedMap.find?_set (fun _ => decide_eq_true_iff), ih, List.filter_append]
      by_cases hkey : member.1 = key.toList <;> simp [hkey]

/-- The elements of the last member with this key, if that is an array. -/
def lastItems (members : List (Str × Json)) (key : String) : List Json :=
  match lastValue members key with
  | some (.array items) => items
  | _ => []

theorem arrayItems_foldl_setMember (members : List (Str × Json)) (key : String) :
    Json.arrayItems (members.foldl setMember []) key = lastItems members key := by
  rw [Json.arrayItems, find_foldl_setMember]
  rfl

theorem readDocument_eq_some {file : Option Str} {v : Json} :
    readDocument signed file = some v ↔
      ∃ text, file = some text ∧ Document (maxDepth + 1) text v := by
  cases file with
  | none => exact ⟨nofun, nofun⟩
  | some text =>
      rw [readDocument, Option.bind_some]
      cases h : parse signed text with
      | error e =>
          refine ⟨nofun, ?_⟩
          rintro ⟨_, ⟨⟩, hdoc⟩
          cases ((parse_eq_ok_iff signed text v).mpr hdoc).symm.trans h
      | ok v' =>
          have hiff := parse_eq_ok_iff signed text v
          rw [h, Except.ok.injEq] at hiff
          simpa [Except.toOption] using hiff

/-- Every object of a document has the members of some text. -/
theorem exists_members {levels : Nat} {text : Str} {doc : Json.Object}
    (h : Document levels text (.object doc)) : ∃ members, Json.object doc = objectOf members := by
  generalize hv : Json.object doc = v at h
  obtain ⟨-, hvalue, -⟩ := h
  cases levels with
  | zero => exact hvalue.elim
  | succ levels =>
      cases hvalue with
      | emptyObject => exact ⟨[], rfl⟩
      | @object s members => exact ⟨members, rfl⟩
      | _ => cases hv

/-- The later of two members counts. -/
def twoMembers : Str :=
  "\x7b \"forwardThunks\" : 1 , \"forwardThunks\":[\"gl\"]\x7d\n".toList

def packDirs : Vars := fun name =>
  if name = "GTL_DIR".toList then some "/g".toList
  else if name = "HTL_DIR".toList then some "/h".toList
  else none

end Lorelei.Json11
