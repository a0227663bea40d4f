import Lorelei.Json11.Accepts

/-!
# The parser against the grammar

`Json::parse` accepts exactly the JSON texts that nest to at most `maxDepth` levels below
the outermost one, and returns the value they denote (`parse_eq_ok_iff`). The loops over
members and elements are treated for any reader of one element (`Reads`).
-/

namespace Lorelei.Json11

open Support DLCall

variable {signed : Bool} {s r t b : Str} {α : Type} {read : Str → Except Str (α × Str)}
  {Text : Str → α → Prop}

/-! ## Readers -/

/-- The reader reads the texts, each to its end, and nothing else. -/
structure Reads (read : Str → Except Str (α × Str)) (Text : Str → α → Prop) : Prop where
  ok : ∀ {s r : Str} {a : α}, read s = .ok (a, r) →
    ∃ b t, Blank b ∧ Text t a ∧ s = b ++ (t ++ r)
  of : ∀ {t r : Str} {a : α}, Text t a → EndsNumber r → read (t ++ r) = .ok (a, r)
  head : ∀ {t : Str} {a : α}, Text t a → ∃ c t', t = c :: t' ∧ isWhitespace c = false

theorem Blank.append {b b' : Str} (hb : Blank b) (hb' : Blank b') : Blank (b ++ b') :=
  fun c hc => (List.mem_append.mp hc).elim (hb c) (hb' c)

theorem Blank.nil : Blank [] := fun _ hc => absurd hc List.not_mem_nil

/-- White space in front of elements belongs to the first one. -/
theorem Elements.blank {as : List α} (hb : Blank b) (h : Elements Text s as) :
    Elements Text (b ++ s) as := by
  cases h with
  | one hb₁ ht hb₂ =>
      rw [← List.append_assoc]
      exact .one (hb.append hb₁) ht hb₂
  | cons hb₁ ht hb₂ hs =>
      rw [← List.append_assoc]
      exact .cons (hb.append hb₁) ht hb₂ hs

theorem Blank.endsNumber (hb : Blank b) {c : Char} (hc : EndsNumber (c :: r)) :
    EndsNumber (b ++ c :: r) := by
  cases b with
  | nil => exact hc
  | cons d b =>
      have hd := hb d List.mem_cons_self
      simp only [List.mem_cons, List.not_mem_nil, or_false] at hd
      rcases hd with rfl | rfl | rfl | rfl <;> exact ⟨rfl, by simp, by simp⟩

theorem Blank.endsNumber_end (hb : Blank b) : EndsNumber b := by
  cases b with
  | nil => exact ⟨rfl, by decide, by decide, by decide⟩
  | cons d b =>
      have hd := hb d List.mem_cons_self
      simp only [List.mem_cons, List.not_mem_nil, or_false] at hd
      rcases hd with rfl | rfl | rfl | rfl <;> exact ⟨rfl, by simp, by simp⟩

/-- A character that stands behind an element. -/
structure Closes (c : Char) : Prop where
  noBlank : isWhitespace c = false
  endsNumber : ∀ r, EndsNumber (c :: r)

theorem closes_comma : Closes ',' := ⟨by decide, fun _ => ⟨by rfl, by simp, by simp⟩⟩

theorem closes_bracket : Closes ']' := ⟨by decide, fun _ => ⟨by rfl, by simp, by simp⟩⟩

theorem closes_brace : Closes '}' := ⟨by decide, fun _ => ⟨by rfl, by simp, by simp⟩⟩

/-! ## Loops -/

theorem parseLoop_ok {close : Char} {kind : String} (hread : Reads read Text) {turns : Nat}
    {as : List α} (h : parseLoop signed close kind read turns s = .ok (as, r)) :
    ∃ t, Elements Text t as ∧ s = t ++ close :: r := by
  induction turns generalizing s as with
  | zero => cases h
  | succ turns ih =>
      rw [parseLoop] at h
      obtain ⟨⟨a, s₁⟩, hitem, hloop⟩ := bind_eq_ok.mp h
      obtain ⟨⟨ch, s₂⟩, htoken, hturn⟩ := bind_eq_ok.mp hloop
      clear h hloop
      obtain ⟨b, t, hb, ht, rfl⟩ := hread.ok hitem
      obtain ⟨b', hb', rfl⟩ := getNextToken_ok htoken
      simp only at hturn
      split at hturn
      next hclose =>
        cases hturn
        subst hclose
        exact ⟨_, .one hb ht hb', by simp⟩
      next hclose =>
        split at hturn
        next => cases hturn
        next hcomma =>
          obtain ⟨⟨ch', s₃⟩, htoken', hrest⟩ := bind_eq_ok.mp hturn
          obtain ⟨⟨as', s₄⟩, hloop, heq⟩ := bind_eq_ok.mp hrest
          clear hturn hrest
          cases heq
          obtain rfl := not_not.mp hcomma
          obtain ⟨b'', hb'', rfl⟩ := getNextToken_ok htoken'
          obtain ⟨t', ht', heq⟩ := ih hloop
          exact ⟨_, .cons hb ht hb' (ht'.blank hb''), by simpa using heq⟩

theorem getNextToken_length {c : Char} (h : getNextToken s = .ok (c, r)) :
    r.length < s.length := by
  obtain ⟨b, -, rfl⟩ := getNextToken_ok h
  simp
  omega

/-- The loop starts at the first token of the elements, and one turn for each of them is
enough. -/
theorem parseLoop_of (signed : Bool) {close : Char} (kind : String) (hread : Reads read Text)
    (hclose : Closes close) (hne : ',' ≠ close)
    (hstart : ∀ {t : Str} {a : α}, Text t a → peek t ≠ close) {as : List α}
    (h : Elements Text t as) (r : Str) :
    ∃ ch s, getNextToken (t ++ close :: r) = .ok (ch, s) ∧ ch ≠ close ∧ as.length ≤ s.length ∧
      ∀ turns, as.length ≤ turns →
        parseLoop signed close kind read turns (ch :: s) = .ok (as, r) := by
  induction h with
  | @one b t b' a hb ht hb' =>
      obtain ⟨c, t', rfl, hc⟩ := hread.head ht
      refine ⟨c, t' ++ (b' ++ close :: r), ?_, hstart ht, ?_, ?_⟩
      · simpa using getNextToken_of hb hc (t' ++ (b' ++ close :: r))
      · simp
        omega
      · intro turns hturns
        obtain ⟨turns, rfl⟩ := Nat.exists_eq_add_of_le' hturns
        have hitem := hread.of ht (hb'.endsNumber (hclose.endsNumber r))
        have htoken := getNextToken_of hb' hclose.noBlank r
        rw [List.cons_append] at hitem
        simp only [List.length_singleton, parseLoop, hitem, htoken, bind, Except.bind, if_pos]
        rfl
  | @cons b t b' s a as hb ht hb' _ ih =>
      obtain ⟨c, t', rfl, hc⟩ := hread.head ht
      obtain ⟨ch, s', htoken', -, hlen, hloop⟩ := ih
      refine ⟨c, t' ++ (b' ++ ',' :: (s ++ close :: r)), ?_, hstart ht, ?_, ?_⟩
      · simpa using getNextToken_of hb hc (t' ++ (b' ++ ',' :: (s ++ close :: r)))
      · have hlt := getNextToken_length htoken'
        simp only [List.length_append, List.length_cons] at hlt ⊢
        omega
      · intro turns hturns
        obtain ⟨turns, rfl⟩ := Nat.exists_eq_add_of_le' hturns
        have hitem := hread.of ht (hb'.endsNumber (closes_comma.endsNumber (s ++ close :: r)))
        have htoken := getNextToken_of hb' closes_comma.noBlank (s ++ close :: r)
        have hrest := hloop (turns + as.length) (Nat.le_add_left _ _)
        rw [List.cons_append] at hitem
        rw [List.length_cons, ← Nat.add_assoc, parseLoop]
        simp only [hitem, htoken, htoken', hrest, bind, Except.bind, if_neg hne, ne_eq,
          not_true_eq_false, if_false]
        rfl

/-! ## Members -/

variable {value : Str → Except Str (Json × Str)} {JsonText : Str → Json → Prop}

/-- A reader that skips white space first. -/
def SkipsBlank (read : Str → Except Str (α × Str)) : Prop :=
  ∀ b, Blank b → ∀ s, read (b ++ s) = read s

theorem reads_parseMember (signed : Bool) (hvalue : Reads value JsonText)
    (hskip : SkipsBlank value) :
    Reads (parseMember signed value) (Member JsonText) where
  ok := by
    rintro s r ⟨key, v⟩ h
    rw [parseMember] at h
    split at h
    next => cases h
    next hquote =>
      obtain ⟨⟨key', s₁⟩, hkey, h₁⟩ := bind_eq_ok.mp h
      obtain ⟨⟨ch, s₂⟩, htoken, h₂⟩ := bind_eq_ok.mp h₁
      clear h h₁
      simp only at h₂
      split at h₂
      next => cases h₂
      next hcolon =>
        obtain ⟨⟨v', s₃⟩, hv, heq⟩ := bind_eq_ok.mp h₂
        clear h₂
        cases heq
        obtain rfl := not_not.mp hcolon
        obtain ⟨chars, items, hchars, htail, hkey'⟩ := parseString_ok hkey
        obtain ⟨b, hb, rfl⟩ := getNextToken_ok htoken
        obtain ⟨b', t, hb', ht, rfl⟩ := hvalue.ok hv
        subst hkey'
        refine ⟨[], _, .nil, .mk hchars hb hb' ht, ?_⟩
        rw [eq_cons_of_peek (not_not.mp hquote) (by decide), htail]
        simp
  of := by
    rintro t r ⟨key, v⟩ ht hr
    obtain ⟨hchars, hb, hb', ht⟩ := ht
    rename_i chars b b' t items
    have hkey := parseString_of signed hchars none (b ++ ':' :: (b' ++ (t ++ r)))
    have htoken := getNextToken_of hb (c := ':') (by decide) (b' ++ (t ++ r))
    have hv := (hskip b' hb' (t ++ r)).trans (hvalue.of ht hr)
    simp only [List.cons_append, List.append_assoc, parseMember, peek_cons, ne_eq,
      not_true_eq_false, if_false, List.tail_cons, hkey, htoken, hv, bind, Except.bind]
    rfl
  head := by
    rintro t a ⟨hchars, hb, hb', ht⟩
    exact ⟨_, _, rfl, by decide⟩

theorem Member.peek {member : Str × Json} (h : Member JsonText t member) : peek t = '"' := by
  cases h
  rfl

/-! ## Values -/

theorem expect_ok {expected : String} {res v : Json} (h : expect expected res s = .ok (v, r)) :
    v = res ∧ s = expected.toList ++ r := by
  rw [expect] at h
  split at h
  next hprefix =>
    cases h
    exact ⟨rfl, (List.prefix_iff_eq_append.mp hprefix).symm⟩
  next => cases h

theorem expect_of (expected : String) (res : Json) (r : Str) :
    expect expected res (expected.toList ++ r) = .ok (res, r) := by
  rw [expect, if_pos (List.prefix_append _ _), List.drop_left]

theorem parseArray_ok (hvalue : Reads value JsonText) {v : Json}
    (h : parseArray signed value s = .ok (v, r)) :
    ∃ t, Value JsonText ('[' :: t) v ∧ s = t ++ r := by
  obtain ⟨⟨ch, s₁⟩, htoken, h₁⟩ := bind_eq_ok.mp h
  clear h
  obtain ⟨b, hb, rfl⟩ := getNextToken_ok htoken
  simp only at h₁
  split at h₁
  next hclose =>
    cases h₁
    subst hclose
    exact ⟨b ++ [']'], .emptyArray hb, by simp⟩
  next =>
    obtain ⟨⟨items, s₂⟩, hloop, heq⟩ := bind_eq_ok.mp h₁
    clear h₁
    cases heq
    obtain ⟨t, ht, hs⟩ := parseLoop_ok hvalue hloop
    exact ⟨(b ++ t) ++ [']'], .array (ht.blank hb), by simp [hs]⟩

theorem parseObject_ok (hvalue : Reads value JsonText) (hskip : SkipsBlank value) {v : Json}
    (h : parseObject signed value s = .ok (v, r)) :
    ∃ t, Value JsonText ('{' :: t) v ∧ s = t ++ r := by
  obtain ⟨⟨ch, s₁⟩, htoken, h₁⟩ := bind_eq_ok.mp h
  clear h
  obtain ⟨b, hb, rfl⟩ := getNextToken_ok htoken
  simp only at h₁
  split at h₁
  next hclose =>
    cases h₁
    subst hclose
    exact ⟨b ++ ['}'], .emptyObject hb, by simp⟩
  next =>
    obtain ⟨⟨members, s₂⟩, hloop, heq⟩ := bind_eq_ok.mp h₁
    clear h₁
    cases heq
    obtain ⟨t, ht, hs⟩ := parseLoop_ok (reads_parseMember signed hvalue hskip) hloop
    exact ⟨(b ++ t) ++ ['}'], .object (ht.blank hb), by simp [hs]⟩

theorem parseArray_empty (signed : Bool) (hb : Blank b) (value : Str → Except Str (Json × Str))
    (r : Str) :
    parseArray signed value (b ++ ']' :: r) = .ok (.array [], r) := by
  simp only [parseArray, getNextToken_of hb closes_bracket.noBlank, bind, Except.bind, if_true]
  rfl

theorem parseObject_empty (signed : Bool) (hb : Blank b) (value : Str → Except Str (Json × Str))
    (r : Str) :
    parseObject signed value (b ++ '}' :: r) = .ok (objectOf [], r) := by
  simp only [parseObject, getNextToken_of hb closes_brace.noBlank, bind, Except.bind, if_true]
  rfl

theorem parseArray_of (signed : Bool) (hvalue : Reads value JsonText)
    (hstart : ∀ {t : Str} {v : Json}, JsonText t v → peek t ≠ ']') {items : List Json}
    (h : Elements JsonText t items) (r : Str) :
    parseArray signed value (t ++ ']' :: r) = .ok (.array items, r) := by
  obtain ⟨ch, s, htoken, hne, hlen, hloop⟩ :=
    parseLoop_of signed "list" hvalue closes_bracket (by decide) hstart h r
  simp only [parseArray, htoken, hloop _ (Nat.le_succ_of_le hlen), bind, Except.bind, if_neg hne]
  rfl

theorem parseObject_of (signed : Bool) (hvalue : Reads value JsonText) (hskip : SkipsBlank value)
    {members : List (Str × Json)} (h : Elements (Member JsonText) t members) (r : Str) :
    parseObject signed value (t ++ '}' :: r) = .ok (objectOf members, r) := by
  obtain ⟨ch, s, htoken, hne, hlen, hloop⟩ :=
    parseLoop_of signed "object"
      (reads_parseMember signed hvalue hskip) closes_brace (by decide)
      (fun ht => by rw [ht.peek]; decide) h r
  simp only [parseObject, htoken, hloop _ (Nat.le_succ_of_le hlen), bind, Except.bind, if_neg hne]
  rfl

theorem Number.peek (h : Number t) (r : Str) :
    Json11.peek (t ++ r) = '-' ∨ (Json11.peek (t ++ r)).isDigit = true := by
  obtain ⟨hminus, hI, -, -⟩ := h
  rename_i minus int frac exp
  rcases List.mem_cons.mp hminus with rfl | hminus
  · rw [List.nil_append, List.append_assoc]
    exact .inr (hI.peek _)
  · obtain rfl := List.mem_singleton.mp hminus
    exact .inl rfl

/-- How a value starts. -/
theorem Value.peek {v : Json} (h : Value JsonText t v) :
    (peek t = '-' ∨ (peek t).isDigit = true) ∨ peek t ∈ ['n', 't', 'f', '"', '[', '{'] := by
  cases h with
  | number hnumber =>
      have := hnumber.peek []
      rw [List.append_nil] at this
      exact .inl this
  | _ => exact .inr (by simp)

theorem Value.peek_ne {v : Json} (h : Value JsonText t v) :
    isWhitespace (Json11.peek t) = false ∧ Json11.peek t ≠ ']' ∧ Json11.peek t ≠ '\x00' := by
  rcases h.peek with (h | h) | h
  · rw [h]
    decide
  · refine ⟨?_, ?_, ?_⟩
    · rw [Bool.eq_false_iff]
      intro hblank
      simp only [isWhitespace, Bool.or_eq_true, decide_eq_true_eq] at hblank
      rcases hblank with ((heq | heq) | heq) | heq <;> rw [heq] at h <;> exact absurd h (by decide)
    all_goals
      intro heq
      rw [heq] at h
      exact absurd h (by decide)
  · simp only [List.mem_cons, List.not_mem_nil, or_false] at h
    rcases h with h | h | h | h | h | h <;> rw [h] <;> decide

theorem parseJson_token {levels : Nat} {c : Char} (hb : Blank b) (hc : isWhitespace c = false)
    (r : Str) :
    parseJson signed (levels + 1) (b ++ c :: r) =
      if c = '-' ∨ c.isDigit then parseNumber signed (c :: r)
      else if c = 't' then expect "true" (.bool true) (c :: r)
      else if c = 'f' then expect "false" (.bool false) (c :: r)
      else if c = 'n' then expect "null" .null (c :: r)
      else if c = '"' then (parseString signed none r).map fun r => (.string r.1, r.2)
      else if c = '{' then parseObject signed (parseJson signed levels) r
      else if c = '[' then parseArray signed (parseJson signed levels) r
      else .error ("expected value, got ".toList ++ esc signed c) := by
  rw [parseJson, getNextToken_of hb hc]
  rfl

theorem skipsBlank_parseJson (signed : Bool) (levels : Nat) :
    SkipsBlank (parseJson signed levels) := by
  intro b hb s
  cases levels with
  | zero => rfl
  | succ levels =>
      have htoken : getNextToken (b ++ s) = getNextToken s := by
        rw [getNextToken, getNextToken, hb.consume]
      rw [parseJson, parseJson, htoken]

theorem parseJson_ok {levels : Nat} (hvalue : Reads (parseJson signed levels) JsonText) {v : Json}
    (h : parseJson signed (levels + 1) s = .ok (v, r)) :
    ∃ b t, Blank b ∧ Value JsonText t v ∧ s = b ++ (t ++ r) := by
  have hskip := skipsBlank_parseJson signed levels
  obtain ⟨⟨c, s'⟩, htoken, h'⟩ := bind_eq_ok.mp h
  clear h
  obtain ⟨b, hb, rfl⟩ := getNextToken_ok htoken
  refine ⟨b, ?_⟩
  simp only at h'
  split at h'
  next =>
    obtain ⟨rfl, t, ht, hs⟩ := parseNumber_ok h'
    exact ⟨t, hb, .number ht, by rw [hs]⟩
  split at h'
  next =>
    obtain ⟨rfl, hs⟩ := expect_ok h'
    exact ⟨_, hb, .trueLit, by rw [hs]⟩
  split at h'
  next =>
    obtain ⟨rfl, hs⟩ := expect_ok h'
    exact ⟨_, hb, .falseLit, by rw [hs]⟩
  split at h'
  next =>
    obtain ⟨rfl, hs⟩ := expect_ok h'
    exact ⟨_, hb, .null, by rw [hs]⟩
  split at h'
  next hquote =>
    obtain ⟨⟨out, r'⟩, hstring, heq⟩ := map_eq_ok.mp h'
    cases heq
    obtain ⟨chars, items, hchars, rfl, rfl⟩ := parseString_ok hstring
    exact ⟨_, hb, .string hchars, by simp [hquote]⟩
  split at h'
  next hbrace =>
    obtain ⟨t, ht, rfl⟩ := parseObject_ok hvalue hskip h'
    exact ⟨_, hb, ht, by simp [hbrace]⟩
  split at h'
  next hbracket =>
    obtain ⟨t, ht, rfl⟩ := parseArray_ok hvalue h'
    exact ⟨_, hb, ht, by simp [hbracket]⟩
  next => cases h'

theorem parseJson_of {levels : Nat} (hvalue : Reads (parseJson signed levels) JsonText)
    (hstart : ∀ {t : Str} {v : Json}, JsonText t v → peek t ≠ ']') {v : Json}
    (h : Value JsonText t v) (hr : EndsNumber r) :
    parseJson signed (levels + 1) (t ++ r) = .ok (v, r) := by
  have hskip := skipsBlank_parseJson signed levels
  cases h with
  | null =>
      exact (parseJson_token .nil (by decide) _).trans (expect_of "null" _ r)
  | trueLit =>
      exact (parseJson_token .nil (by decide) _).trans (expect_of "true" _ r)
  | falseLit =>
      exact (parseJson_token .nil (by decide) _).trans (expect_of "false" _ r)
  | number hnumber =>
      have hread := parseNumber_of signed hnumber hr
      have hpeek := hnumber.peek r
      have hvalue : Value JsonText t .number := .number hnumber
      have hne := hvalue.peek_ne
      cases t with
      | nil => exact absurd rfl hne.2.2
      | cons c t => exact ((parseJson_token .nil hne.1 _).trans (if_pos hpeek)).trans hread
  | string hchars =>
      have hread := parseString_of signed hchars none r
      refine ((parseJson_token .nil (by decide) _).trans ?_)
      simp [hread, Except.map, pending]
  | emptyArray hb =>
      have hread := parseArray_empty signed hb (parseJson signed levels) r
      refine ((parseJson_token .nil (by decide) _).trans ?_)
      simpa using hread
  | array hitems =>
      have hread := parseArray_of signed hvalue hstart hitems r
      refine ((parseJson_token .nil (by decide) _).trans ?_)
      simpa using hread
  | emptyObject hb =>
      have hread := parseObject_empty signed hb (parseJson signed levels) r
      refine ((parseJson_token .nil (by decide) _).trans ?_)
      simpa using hread
  | object hmembers =>
      have hread := parseObject_of signed hvalue hskip hmembers r
      refine ((parseJson_token .nil (by decide) _).trans ?_)
      simpa using hread

theorem Denotes.peek_ne {levels : Nat} {v : Json} (h : Denotes levels t v) :
    isWhitespace (peek t) = false ∧ peek t ≠ ']' ∧ peek t ≠ '\x00' := by
  cases levels with
  | zero => exact h.elim
  | succ levels => exact Value.peek_ne h

theorem reads_parseJson (signed : Bool) (levels : Nat) :
    Reads (parseJson signed levels) (Denotes levels) := by
  induction levels with
  | zero => exact ⟨nofun, nofun, nofun⟩
  | succ levels ih =>
      refine ⟨parseJson_ok ih, parseJson_of ih fun h => h.peek_ne.2.1, ?_⟩
      intro t v h
      have hpeek := Value.peek_ne h
      exact ⟨_, _, eq_cons_of_peek rfl hpeek.2.2, hpeek.1⟩

/-! ## Documents -/

/-- A text is accepted exactly if it is a JSON text of a value that nests to at most
`maxDepth` levels below the outermost one, and then the value is the result. -/
theorem parse_eq_ok_iff (signed : Bool) (text : Str) (v : Json) :
    parse signed text = .ok v ↔ Document (maxDepth + 1) text v := by
  have hreads := reads_parseJson signed (maxDepth + 1)
  constructor
  · intro h
    obtain ⟨⟨v', s⟩, hvalue, h'⟩ := bind_eq_ok.mp h
    clear h
    obtain ⟨b, t, hb, ht, rfl⟩ := hreads.ok hvalue
    obtain ⟨b', hb', hs⟩ := Blank.append_dropWhile s
    simp only at h'
    split at h'
    next hnil =>
      cases h'
      rw [hnil, List.append_nil] at hs
      exact .mk hb ht (hs ▸ hb')
    next => cases h'
  · rintro ⟨hb, ht, hb'⟩
    rename_i b t b'
    have hvalue := hreads.of ht (hb'.endsNumber_end)
    have hskip := skipsBlank_parseJson signed (maxDepth + 1) b hb (t ++ b')
    have hend : consumeWhitespace b' = [] := by
      have := hb'.consume []
      rwa [List.append_nil] at this
    rw [parse, hskip, hvalue]
    simp only [bind, Except.bind, hend]
    rfl

end Lorelei.Json11
