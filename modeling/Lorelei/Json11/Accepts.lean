import Lorelei.Json11.Grammar

/-!
# What the parser accepts

Each part of the parser reads a text of its part of the grammar (`_ok`), and it reads each
such text if what follows does not go on with it (`_of`). A string is read with the code
point that was escaped last still pending, as if that escape came first.
-/

namespace Lorelei.Json11

open Support DLCall

variable {signed : Bool} {s r t b : Str}

theorem map_eq_ok {ε α β : Type} {f : α → β} {x : Except ε α} {b : β} :
    x.map f = .ok b ↔ ∃ a, x = .ok a ∧ f a = b := by
  cases x with
  | error e => exact ⟨nofun, nofun⟩
  | ok a => simp [Except.map]

theorem bind_eq_ok {ε α β : Type} {x : Except ε α} {f : α → Except ε β} {b : β} :
    x >>= f = .ok b ↔ ∃ a, x = .ok a ∧ f a = .ok b := by
  cases x with
  | error e => exact ⟨nofun, nofun⟩
  | ok a => exact ⟨fun h => ⟨a, rfl, h⟩, fun ⟨_, heq, h⟩ => by cases heq; exact h⟩

/-! ## White space and tokens -/

theorem mem_blank_iff {c : Char} : c ∈ [' ', '\t', '\n', '\r'] ↔ isWhitespace c = true := by
  simp only [isWhitespace, List.mem_cons, List.not_mem_nil, or_false, Bool.or_eq_true,
    decide_eq_true_eq]
  tauto

theorem Blank.append_dropWhile (s : Str) :
    ∃ b, Blank b ∧ s = b ++ consumeWhitespace s :=
  ⟨s.takeWhile isWhitespace, fun _ hc => mem_blank_iff.mpr (List.mem_takeWhile_imp hc),
    List.takeWhile_append_dropWhile.symm⟩

theorem Blank.consume (hb : Blank b) (s : Str) :
    consumeWhitespace (b ++ s) = consumeWhitespace s :=
  List.dropWhile_append_of_pos fun c hc => mem_blank_iff.mp (hb c hc)

theorem getNextToken_ok {c : Char} (h : getNextToken s = .ok (c, r)) :
    ∃ b, Blank b ∧ s = b ++ c :: r := by
  obtain ⟨b, hb, hs⟩ := Blank.append_dropWhile s
  rw [getNextToken] at h
  split at h
  next => cases h
  next heq =>
    cases h
    exact ⟨b, hb, heq ▸ hs⟩

theorem getNextToken_of (hb : Blank b) {c : Char} (hc : isWhitespace c = false) (r : Str) :
    getNextToken (b ++ c :: r) = .ok (c, r) := by
  rw [getNextToken, hb.consume, consumeWhitespace, List.dropWhile_cons_of_neg (by simp [hc])]

theorem eq_cons_of_peek {c : Char} (h : peek s = c) (hc : c ≠ '\x00') : s = c :: s.tail := by
  cases s with
  | nil => exact absurd h.symm hc
  | cons d s => exact congrArg (· :: s) h

@[simp] theorem peek_cons (c : Char) (s : Str) : peek (c :: s) = c := rfl

/-! ## Numbers -/

theorem isDigit_ne_nul {c : Char} (h : c.isDigit = true) : c ≠ '\x00' := by
  rintro rfl
  exact absurd h (by decide)

theorem isDigit_iff {c : Char} : c.isDigit = true ↔ c = '0' ∨ ('1' ≤ c ∧ c ≤ '9') := by
  simp only [Char.isDigit, ge_iff_le, Bool.and_eq_true, decide_eq_true_eq, Char.le_def,
    Char.ext_iff, UInt32.le_iff_toNat_le, ← UInt32.toNat_inj]
  have h0 : '0'.val.toNat = 48 := rfl
  have h1 : '1'.val.toNat = 49 := rfl
  have h9 : '9'.val.toNat = 57 := rfl
  have h48 : UInt32.toNat 48 = 48 := rfl
  have h57 : UInt32.toNat 57 = 57 := rfl
  omega

/-- No digit comes next. -/
def EndsDigits (s : Str) : Prop := (peek s).isDigit = false

/-- The digits that are skipped, and no digit follows. -/
theorem dropWhile_digits (s : Str) :
    ∃ ds, (∀ d ∈ ds, d.isDigit = true) ∧ s = ds ++ s.dropWhile Char.isDigit ∧
      EndsDigits (s.dropWhile Char.isDigit) := by
  refine ⟨s.takeWhile Char.isDigit, fun d hd => List.mem_takeWhile_imp hd,
    List.takeWhile_append_dropWhile.symm, ?_⟩
  rw [EndsDigits, peek, List.headD_eq_head?_getD]
  have hhead := List.head?_dropWhile_not Char.isDigit s
  cases h : (s.dropWhile Char.isDigit).head? with
  | none => rfl
  | some c =>
      rw [h] at hhead
      simpa using hhead

theorem dropWhile_digits_of {ds : Str} (hds : ∀ d ∈ ds, d.isDigit = true) (hr : EndsDigits r) :
    (ds ++ r).dropWhile Char.isDigit = r := by
  rw [List.dropWhile_append_of_pos hds]
  cases r with
  | nil => rfl
  | cons c r => exact List.dropWhile_cons_of_neg (by simpa [EndsDigits] using hr)

theorem parseInteger_ok (h : parseInteger signed s = .ok r) :
    ∃ int, Integer int ∧ s = int ++ r ∧ EndsDigits r := by
  rw [parseInteger] at h
  split at h
  next hzero =>
    have hs := eq_cons_of_peek hzero (by decide)
    split at h
    next => cases h
    next hdigit =>
      cases h
      exact ⟨['0'], .zero, hs, by simpa [EndsDigits] using hdigit⟩
  next hzero =>
    split at h
    next hrange =>
      cases h
      have hdigit := isDigit_iff.mpr (.inr hrange)
      have hs := eq_cons_of_peek rfl (isDigit_ne_nul hdigit)
      obtain ⟨ds, hds, htail, hends⟩ := dropWhile_digits s.tail
      refine ⟨peek s :: ds, .nonzero hdigit hzero hds, ?_, hends⟩
      rw [List.cons_append, ← htail]
      exact hs
    next => cases h

theorem parseInteger_of (signed : Bool) {int : Str} (h : Integer int) (hr : EndsDigits r) :
    parseInteger signed (int ++ r) = .ok r := by
  cases h with
  | zero =>
      rw [parseInteger, List.cons_append, peek_cons, if_pos rfl, List.tail_cons, List.nil_append,
        if_neg (by rw [hr]; decide)]
  | @nonzero c ds hc hzero hds =>
      have hrange := (isDigit_iff.mp hc).resolve_left hzero
      rw [parseInteger, List.cons_append, peek_cons, if_neg hzero, if_pos hrange, List.tail_cons,
        dropWhile_digits_of hds hr]

theorem digits_cons (h : (peek s).isDigit = true) :
    ∃ ds, Digits ds ∧ s = ds ++ s.dropWhile Char.isDigit ∧
      EndsDigits (s.dropWhile Char.isDigit) := by
  obtain ⟨ds, hds, hs, hends⟩ := dropWhile_digits s
  refine ⟨ds, ⟨?_, hds⟩, hs, hends⟩
  rintro rfl
  rw [List.nil_append] at hs
  rw [← hs, EndsDigits, h] at hends
  cases hends

theorem Digits.peek (h : Digits t) (r : Str) : (Json11.peek (t ++ r)).isDigit = true := by
  obtain ⟨hne, hds⟩ := h
  cases t with
  | nil => exact absurd rfl hne
  | cons d t => exact hds d List.mem_cons_self

theorem parseDecimal_ok (h : parseDecimal s = .ok r) (hs : EndsDigits s) :
    ∃ frac, Fraction frac ∧ s = frac ++ r ∧ EndsDigits r := by
  rw [parseDecimal] at h
  split at h
  next hpoint =>
    split at h
    next hdigit =>
      cases h
      obtain ⟨ds, hds, htail, hends⟩ := digits_cons hdigit
      refine ⟨'.' :: ds, .point hds, ?_, hends⟩
      rw [List.cons_append, ← htail]
      exact eq_cons_of_peek hpoint (by decide)
    next => cases h
  next =>
    cases h
    exact ⟨[], .nil, rfl, hs⟩

/-- What can follow a number: it does not go on. -/
structure EndsNumber (r : Str) : Prop where
  digits : EndsDigits r
  point : peek r ≠ '.'
  exp : peek r ≠ 'e' ∧ peek r ≠ 'E'

theorem parseDecimal_of {frac : Str} (h : Fraction frac) (hr : EndsDigits r)
    (hpoint : peek r ≠ '.') :
    parseDecimal (frac ++ r) = .ok r := by
  cases h with
  | nil => rw [parseDecimal, List.nil_append, if_neg hpoint]
  | point hds =>
      rw [parseDecimal, List.cons_append, peek_cons, if_pos rfl, List.tail_cons,
        if_pos (hds.peek r), dropWhile_digits_of hds.2 hr]

/-- The sign of an exponent. -/
theorem exists_sign (s : Str) :
    ∃ sign ∈ [[], ['+'], ['-']],
      s = sign ++ if peek s = '+' ∨ peek s = '-' then s.tail else s := by
  by_cases hsign : peek s = '+' ∨ peek s = '-'
  · have hs : s = peek s :: s.tail := by
      refine eq_cons_of_peek rfl ?_
      rintro heq
      rw [heq] at hsign
      exact absurd hsign (by decide)
    refine ⟨[peek s], by simpa using hsign, ?_⟩
    rw [if_pos hsign]
    exact hs
  · exact ⟨[], List.mem_cons_self, by rw [if_neg hsign, List.nil_append]⟩

theorem parseExponent_ok (h : parseExponent s = .ok r) : ∃ exp, Exponent exp ∧ s = exp ++ r := by
  obtain ⟨sign, hsign, htail⟩ := exists_sign s.tail
  rw [parseExponent] at h
  split at h
  next hexp =>
    have hs : s = peek s :: s.tail := by
      refine eq_cons_of_peek rfl ?_
      rintro heq
      rw [heq] at hexp
      exact absurd hexp (by decide)
    have hmem : peek s ∈ ['e', 'E'] := by simpa using hexp
    simp only at h
    generalize (if peek s.tail = '+' ∨ peek s.tail = '-' then s.tail.tail else s.tail) =
      s' at h htail
    split at h
    next hdigit =>
      cases h
      obtain ⟨ds, hds, hs', -⟩ := digits_cons hdigit
      refine ⟨peek s :: (sign ++ ds), .exp hmem hsign hds, ?_⟩
      rw [List.cons_append, List.append_assoc, ← hs', ← htail, ← hs]
    next => cases h
  next =>
    cases h
    exact ⟨[], .nil, rfl⟩

theorem parseExponent_of {exp : Str} (h : Exponent exp) (hr : EndsNumber r) :
    parseExponent (exp ++ r) = .ok r := by
  cases h with
  | nil =>
      rw [parseExponent, List.nil_append, if_neg]
      rintro (h | h)
      · exact hr.exp.1 h
      · exact hr.exp.2 h
  | @exp e sign ds he hsign hds =>
      have he' : e = 'e' ∨ e = 'E' := by simpa using he
      rw [parseExponent, List.cons_append, peek_cons, if_pos he', List.tail_cons]
      have hdigits := dropWhile_digits_of hds.2 hr.digits
      have hpeek := hds.peek r
      -- The first digit is no sign.
      have hno : ¬ (peek (ds ++ r) = '+' ∨ peek (ds ++ r) = '-') := by
        rintro (h | h) <;> rw [h] at hpeek <;> exact absurd hpeek (by decide)
      simp only [List.mem_cons, List.not_mem_nil, or_false] at hsign
      rcases hsign with rfl | rfl | rfl
      · simp only [List.nil_append, if_neg hno, if_pos hpeek, hdigits]
      · simp [hpeek, hdigits]
      · simp [hpeek, hdigits]

theorem parseNumber_ok {v : Json} (h : parseNumber signed s = .ok (v, r)) :
    v = .number ∧ ∃ t, Number t ∧ s = t ++ r := by
  simp only [parseNumber, bind, Except.bind, pure, Except.pure] at h
  split at h
  next => cases h
  next s₁ hint =>
    split at h
    next => cases h
    next s₂ hfrac =>
      split at h
      next => cases h
      next s₃ hexp =>
        cases h
        obtain ⟨int, hI, hs, hends⟩ := parseInteger_ok hint
        obtain ⟨frac, hF, rfl, -⟩ := parseDecimal_ok hfrac hends
        obtain ⟨exp, hE, rfl⟩ := parseExponent_ok hexp
        refine ⟨rfl, ?_⟩
        split at hs
        next hminus =>
          refine ⟨['-'] ++ (int ++ (frac ++ exp)), .mk (by simp) hI hF hE, ?_⟩
          rw [eq_cons_of_peek hminus (by decide), hs]
          simp
        next =>
          refine ⟨[] ++ (int ++ (frac ++ exp)), .mk (by simp) hI hF hE, ?_⟩
          rw [hs]
          simp

theorem Exponent.endsDigits {exp : Str} (h : Exponent exp) (hr : EndsNumber r) :
    EndsDigits (exp ++ r) ∧ peek (exp ++ r) ≠ '.' := by
  cases h with
  | nil => exact ⟨hr.digits, hr.point⟩
  | exp he _ _ =>
      rcases List.mem_cons.mp he with rfl | he
      · exact ⟨rfl, by simp⟩
      · obtain rfl := List.mem_singleton.mp he
        exact ⟨rfl, by simp⟩

theorem Fraction.endsDigits {frac : Str} (h : Fraction frac) (hr : EndsDigits r) :
    EndsDigits (frac ++ r) := by
  cases h with
  | nil => exact hr
  | point => rfl

theorem Integer.peek {int : Str} (h : Integer int) (r : Str) :
    (Json11.peek (int ++ r)).isDigit = true := by
  cases h with
  | zero => rfl
  | nonzero hc => exact hc

theorem parseNumber_of (signed : Bool) (h : Number t) (hr : EndsNumber r) :
    parseNumber signed (t ++ r) = .ok (.number, r) := by
  obtain ⟨hminus, hI, hF, hE⟩ := h
  rename_i minus int frac exp
  have hE' := hE.endsDigits hr
  have hint := parseInteger_of signed hI (hF.endsDigits hE'.1)
  have hfrac := parseDecimal_of hF hE'.1 hE'.2
  have hexp := parseExponent_of hE hr
  have hpeek := hI.peek (frac ++ (exp ++ r))
  have hno : peek (int ++ (frac ++ (exp ++ r))) ≠ '-' := by
    intro heq
    rw [heq] at hpeek
    exact absurd hpeek (by decide)
  have hskip : (if peek (minus ++ (int ++ (frac ++ exp)) ++ r) = '-' then
      (minus ++ (int ++ (frac ++ exp)) ++ r).tail else minus ++ (int ++ (frac ++ exp)) ++ r) =
      int ++ (frac ++ (exp ++ r)) := by
    rcases List.mem_cons.mp hminus with rfl | hminus
    · simp [hno]
    · obtain rfl := List.mem_singleton.mp hminus
      simp
  simp only [parseNumber, hskip, hint, hfrac, hexp, bind, Except.bind, pure, Except.pure]

/-! ## Strings -/

/-- What is left to decode when an escape is pending. -/
def pending (last : Option Nat) (items : List Item) : List Item :=
  (last.map Item.escaped).toList ++ items

theorem decode_pending_nil (last : Option Nat) : decode (pending last []) = encodeLast last := by
  cases last with
  | none => rfl
  | some pt => exact List.append_nil _

theorem decode_pending_char (last : Option Nat) (c : Char) (items : List Item) :
    decode (pending last (.char c :: items)) = encodeLast last ++ c :: decode items := by
  cases last with
  | none => rfl
  | some pt => rfl

theorem decode_pending_escaped (last : Option Nat) (pt : Nat) (items : List Item) :
    decode (pending last (.escaped pt :: items)) =
      match last.filter fun lead => isLead lead && isTrail pt with
      | some lead => encodeUtf8 (surrogatePair lead pt) ++ decode items
      | none => encodeLast last ++ decode (pending (some pt) items) := by
  cases last with
  | none => rfl
  | some lead =>
      show decode (.escaped lead :: .escaped pt :: items) = _
      rw [decode, Option.filter_some]
      split <;> rfl

theorem parseString_char {last : Option Nat} {c : Char} (hquote : c ≠ '"') (hslash : c ≠ '\\')
    (hcontrol : 0x1f < c.toNat) :
    parseString signed last (c :: s) =
      (parseString signed none s).map fun r => (encodeLast last ++ c :: r.1, r.2) := by
  rw [parseString, if_neg (by omega)]
  · exact hquote
  · exact fun heq => absurd heq hslash
  · exact fun _ _ _ _ _ heq => absurd heq hslash
  · exact fun _ heq => absurd heq hslash
  · exact fun _ _ heq => absurd heq hslash

theorem parseString_simple {last : Option Nat} {e c : Char} (h : simpleEscape e = some c) :
    parseString signed last ('\\' :: e :: s) =
      (parseString signed none s).map fun r => (encodeLast last ++ c :: r.1, r.2) := by
  have hu : e ≠ 'u' := by
    rintro rfl
    cases h
  rw [parseString, h]
  · exact fun _ _ _ _ _ heq => absurd heq hu
  · exact hu

theorem parseString_unicode {last : Option Nat} {a b c d : Char} {pt : Nat}
    (h : codepoint a b c d = some pt) :
    parseString signed last ('\\' :: 'u' :: a :: b :: c :: d :: s) =
      match last.filter fun lead => isLead lead && isTrail pt with
      | some lead => (parseString signed none s).map fun r =>
          (encodeUtf8 (surrogatePair lead pt) ++ r.1, r.2)
      | none => (parseString signed (some pt) s).map fun r => (encodeLast last ++ r.1, r.2) := by
  rw [parseString]
  split
  next hnone =>
    rw [h] at hnone
    cases hnone
  next pt' hpt =>
    obtain rfl : pt = pt' := Option.some.inj (h.symm.trans hpt)
    rfl

theorem parseString_ok {last : Option Nat} {out : Str}
    (h : parseString signed last s = .ok (out, r)) :
    ∃ chars items, Characters chars items ∧ s = chars ++ '"' :: r ∧
      out = decode (pending last items) := by
  induction last, s using parseString.induct generalizing out with
  | case1 => cases h
  | case2 last s =>
      cases h
      exact ⟨[], [], .nil, rfl, (decode_pending_nil last).symm⟩
  | case3 => cases h
  | case4 last a b c d s hpt =>
      rw [parseString, hpt] at h
      cases h
  | case5 last a b c d s pt hpt lead hlead ih =>
      rw [parseString_unicode hpt, hlead] at h
      obtain ⟨⟨out', r'⟩, hok, heq⟩ := map_eq_ok.mp h
      obtain ⟨rfl, rfl⟩ := Prod.mk.inj heq
      obtain ⟨chars, items, hchars, rfl, rfl⟩ := ih hok
      refine ⟨_, _, .cons (.unicode hpt) hchars, rfl, ?_⟩
      rw [decode_pending_escaped, hlead]
      rfl
  | case6 last a b c d s pt hpt hlead ih =>
      rw [parseString_unicode hpt, hlead] at h
      obtain ⟨⟨out', r'⟩, hok, heq⟩ := map_eq_ok.mp h
      obtain ⟨rfl, rfl⟩ := Prod.mk.inj heq
      obtain ⟨chars, items, hchars, rfl, rfl⟩ := ih hok
      refine ⟨_, _, .cons (.unicode hpt) hchars, rfl, ?_⟩
      rw [decode_pending_escaped, hlead]
  | case7 last s hshort =>
      rw [parseString] at h
      · cases h
      · exact hshort
  | case8 last e s _ hu hnone =>
      rw [parseString, hnone] at h
      · cases h
      · exact fun _ _ _ _ _ heq => absurd heq hu
      · exact hu
  | case9 last e s _ _ c hsome ih =>
      rw [parseString_simple hsome] at h
      obtain ⟨⟨out', r'⟩, hok, heq⟩ := map_eq_ok.mp h
      obtain ⟨rfl, rfl⟩ := Prod.mk.inj heq
      obtain ⟨chars, items, hchars, rfl, rfl⟩ := ih hok
      exact ⟨_, _, .cons (.simple hsome) hchars, rfl, (decode_pending_char _ _ _).symm⟩
  | case10 last c s hquote hnil _ _ hcons hcontrol =>
      rw [parseString, if_pos hcontrol] at h
      · cases h
      all_goals assumption
  | case11 last c s hquote hnil _ _ hcons hcontrol ih =>
      have hslash : c ≠ '\\' := by
        cases s with
        | nil => exact fun heq => hnil heq rfl
        | cons d s => exact fun heq => hcons d s heq rfl
      rw [parseString_char hquote hslash (by omega)] at h
      obtain ⟨⟨out', r'⟩, hok, heq⟩ := map_eq_ok.mp h
      obtain ⟨rfl, rfl⟩ := Prod.mk.inj heq
      obtain ⟨chars, items, hchars, rfl, rfl⟩ := ih hok
      exact ⟨_, _, .cons (.char hquote hslash (by omega)) hchars, rfl,
        (decode_pending_char _ _ _).symm⟩

theorem parseString_of (signed : Bool) {chars : Str} {items : List Item}
    (h : Characters chars items)
    (last : Option Nat) (r : Str) :
    parseString signed last (chars ++ '"' :: r) = .ok (decode (pending last items), r) := by
  induction h generalizing last with
  | nil =>
      rw [decode_pending_nil]
      rfl
  | cons hspells _ ih =>
      cases hspells with
      | char hquote hslash hcontrol =>
          rw [List.append_assoc, List.singleton_append, parseString_char hquote hslash hcontrol,
            ih, decode_pending_char]
          rfl
      | simple hescape =>
          rw [List.append_assoc, List.cons_append, List.singleton_append,
            parseString_simple hescape, ih, decode_pending_char]
          rfl
      | @unicode a b c d pt hpt =>
          simp only [List.cons_append, List.nil_append]
          rw [parseString_unicode hpt, decode_pending_escaped]
          split
          all_goals
            rw [ih]
            rfl

end Lorelei.Json11
