import Lorelei.Support.ConfigFile

/-!
# Quoted keys and values

A key and a value, each written between double quotes with its special characters
escaped, make a line `"key"="value"`.  `parseLine` takes the quotes off before it looks
for a quoted string, so escapes are never decoded, and it splits the line at the first
`=`, quoted or not.
-/

namespace Lorelei.Support.ConfigFile

/-- The ways to write a string between double quotes on one line: a character stands for
itself or is escaped, and a double quote, a backslash and a newline have to be. -/
inductive Written : Str → Str → Prop
  | nil : Written [] []
  | plain {c : Char} {s t : Str} :
      c ≠ '"' → c ≠ '\\' → c ≠ '\n' → Written s t → Written (c :: s) (c :: t)
  | escaped {c e : Char} {s t : Str} :
      escapeOf e = some c → Written s t → Written (c :: s) ('\\' :: e :: t)

/-- The writing that escapes every character it can. -/
def escapeChar : Char → Str
  | '\n' => ['\\', 'n']
  | '\t' => ['\\', 't']
  | '\r' => ['\\', 'r']
  | '\\' => ['\\', '\\']
  | '"' => ['\\', '"']
  | '\x27' => ['\\', '\x27']
  | c => [c]

def writing (s : Str) : Str := s.flatMap escapeChar

def quoted (text : Str) : Str := '"' :: (text ++ ['"'])

def quotedLine (keyText valueText : Str) : Str := quoted keyText ++ '=' :: quoted valueText

/-- The line is accepted, and the current section gets exactly this key and value. -/
def RoundTrips (key value keyText valueText : Str) : Prop :=
  ∀ (fs : FileSystem) (load : Str → ConfigFile → Run (ParseResult × ConfigFile))
    (file : Str) (lineNum : Nat) (c : ConfigFile),
    parseLine fs load (quotedLine keyText valueText) file lineNum c =
      .ok (.ok, c.record key value)

/-! ## Writings -/

variable {s t key value keyText valueText : Str}

/-- Every string can be written. -/
theorem written_writing : Written s (writing s) := by
  induction s with
  | nil => exact .nil
  | cons c s ih =>
      change Written (c :: s) (escapeChar c ++ writing s)
      unfold escapeChar
      split
      · exact .escaped rfl ih
      · exact .escaped rfl ih
      · exact .escaped rfl ih
      · exact .escaped rfl ih
      · exact .escaped rfl ih
      · exact .escaped rfl ih
      · rename_i hn _ _ hb hq _
        exact .plain hq hb hn ih

theorem escapeOf_ne_equals {e c : Char} (h : escapeOf e = some c) : c ≠ '=' := by
  rintro rfl
  unfold escapeOf at h
  split at h <;> simp at h

theorem unescape_plain {c : Char} (hc : c ≠ '\\') (t : Str) :
    unescape (c :: t) = (unescape t).map (c :: ·) := by
  rw [unescape]
  · intro h
    exact absurd h hc
  · intro e s h
    exact absurd h hc

/-- A writing decodes to the string it writes. -/
theorem unescape_of_written (h : Written s t) : unescape t = some s := by
  induction h with
  | nil => rfl
  | plain _ hb _ _ ih => rw [unescape_plain hb, ih, Option.map_some]
  | escaped he _ ih => rw [unescape, he, ih, Option.bind_some, Option.map_some]

/-- Without its last character a writing decodes to something shorter, if at all. -/
theorem length_lt_of_unescape_dropLast (h : Written s t) (ht : t ≠ []) {u : Str}
    (hu : unescape t.dropLast = some u) : u.length < s.length := by
  induction h generalizing u with
  | nil => exact absurd rfl ht
  | @plain c s t _ hb _ _ ih =>
      by_cases ht' : t = []
      · subst ht'
        obtain rfl : u = [] := (Option.some.inj hu).symm
        exact Nat.succ_pos _
      rw [List.dropLast_cons_of_ne_nil ht', unescape_plain hb] at hu
      obtain ⟨u', hu', rfl⟩ := Option.map_eq_some_iff.mp hu
      exact Nat.succ_lt_succ (ih ht' hu')
  | @escaped c e s t he _ ih =>
      by_cases ht' : t = []
      · subst ht'
        cases hu
      rw [List.dropLast_cons_of_ne_nil (List.cons_ne_nil _ _), List.dropLast_cons_of_ne_nil ht',
        unescape, he, Option.bind_some] at hu
      obtain ⟨u', hu', rfl⟩ := Option.map_eq_some_iff.mp hu
      exact Nat.succ_lt_succ (ih ht' hu')

/-- What parsing a writing gives when its quotes are gone. -/
theorem parseQuotedString_written (h : Written s t) :
    parseQuotedString t = some s ↔ t = s ∧ s.head? ≠ some '\x27' := by
  cases h with
  | nil => simp [parseQuotedString]
  | @plain c s t hq hb _ h =>
      by_cases hc : c = '\x27'
      · subst hc
        refine iff_of_false (fun hparse => ?_) (by simp)
        rw [parseQuotedString, if_pos (by decide)] at hparse
        split at hparse
        · rename_i hlast
          have ht : t ≠ [] := by
            rintro rfl
            cases hlast
          have hlt := length_lt_of_unescape_dropLast h ht hparse
          simp only [List.length_cons] at hlt
          omega
        · cases hparse
      · simp [parseQuotedString, isQuote, hq, hc]
  | @escaped c e s t he h =>
      have hverbatim : parseQuotedString ('\\' :: e :: t) = some ('\\' :: e :: t) := rfl
      rw [hverbatim]
      constructor
      · intro heq
        obtain ⟨rfl, rfl⟩ := List.cons.inj (Option.some.inj heq)
        exact ⟨rfl, by simp⟩
      · rintro ⟨heq, -⟩
        rw [heq]

theorem equals_notMem_unescape (ht : '=' ∉ t) (h : unescape t = some s) : '=' ∉ s := by
  induction t using unescape.induct generalizing s with
  | case1 =>
      obtain rfl := Option.some.inj h
      exact ht
  | case2 => cases h
  | case3 e t ih =>
      rw [unescape] at h
      obtain ⟨c, hc, h⟩ := Option.bind_eq_some_iff.mp h
      obtain ⟨u, hu, rfl⟩ := Option.map_eq_some_iff.mp h
      have hrest := ih (by simp_all) hu
      simpa [hrest] using (escapeOf_ne_equals hc).symm
  | case4 c t h₁ h₂ ih =>
      have hc : c ≠ '\\' := by
        rintro rfl
        cases t with
        | nil => exact h₁ rfl rfl
        | cons e t => exact h₂ e t rfl rfl
      rw [unescape_plain hc] at h
      obtain ⟨u, hu, rfl⟩ := Option.map_eq_some_iff.mp h
      rw [List.mem_cons, not_or] at ht ⊢
      exact ⟨ht.1, ih ht.2 hu⟩

theorem equals_notMem_parseQuotedString (ht : '=' ∉ t) (h : parseQuotedString t = some s) :
    '=' ∉ s := by
  unfold parseQuotedString at h
  split at h
  · obtain rfl := Option.some.inj h
    exact ht
  · rename_i quoteChar t
    split at h
    · split at h
      · refine equals_notMem_unescape (fun hmem => ht ?_) h
        exact List.mem_cons_of_mem _ ((List.dropLast_sublist _).subset hmem)
      · cases h
    · obtain rfl := Option.some.inj h
      exact ht

theorem mem_of_mem_trim {c : Char} (h : c ∈ trim t) : c ∈ t :=
  (List.dropWhile_sublist _).subset ((List.rdropWhile_prefix _ _).subset h)

theorem mem_of_mem_unquoteString {c : Char} (h : c ∈ unquoteString t) : c ∈ t := by
  unfold unquoteString at h
  split at h
  · exact List.mem_of_mem_tail ((List.dropLast_sublist _).subset h)
  · exact h

theorem mem_equals_iff (h : Written s t) : '=' ∈ t ↔ '=' ∈ s := by
  induction h with
  | nil => rfl
  | plain _ _ _ _ ih => rw [List.mem_cons, List.mem_cons, ih]
  | @escaped c e s t he _ ih =>
      have he' : '=' ≠ e := by
        rintro rfl
        cases he
      simp [ih, he', (escapeOf_ne_equals he).symm]

/-! ## The line -/

theorem uncomment_written (h : Written s t) (rest : Str) :
    uncomment (some '"') false (t ++ rest) =
      (uncomment (some '"') false rest).map (t ++ ·) := by
  induction h with
  | nil => simp
  | @plain c s t hq hb _ _ ih =>
      have hstep : uncomment (some '"') false (c :: (t ++ rest)) =
          (uncomment (some '"') false (t ++ rest)).map (c :: ·) := by
        rw [uncomment, if_neg (fun h => hq h.2)]
        exact hb
      rw [List.cons_append, hstep, ih, Option.map_map]
      rfl
  | @escaped c e s t _ _ ih =>
      rw [List.cons_append, List.cons_append, uncomment, uncomment, ih, Option.map_map,
        Option.map_map]
      rfl

theorem uncomment_quoted (h : Written s t) (rest : Str) :
    uncomment none false (quoted t ++ rest) =
      (uncomment none false rest).map (quoted t ++ ·) := by
  have hopen : uncomment none false (quoted t ++ rest) =
      (uncomment (some '"') false (t ++ '"' :: rest)).map ('"' :: ·) := by
    simp [quoted, uncomment, isQuote]
  have hclose : uncomment (some '"') false ('"' :: rest) =
      (uncomment none false rest).map ('"' :: ·) := by
    simp [uncomment, isQuote]
  rw [hopen, uncomment_written h, hclose, Option.map_map, Option.map_map]
  refine Option.map_congr fun text _ => ?_
  simp [quoted]

/-- No part of the line is a comment. -/
theorem removeInlineComment_quotedLine (hK : Written key keyText) (hV : Written value valueText) :
    removeInlineComment (quotedLine keyText valueText) = some (quotedLine keyText valueText) := by
  have hequals : uncomment none false ('=' :: quoted valueText) =
      (uncomment none false (quoted valueText)).map ('=' :: ·) := by
    simp [uncomment, isQuote]
  have hvalue := uncomment_quoted hV []
  rw [List.append_nil, uncomment, Option.map_some, List.append_nil] at hvalue
  rw [removeInlineComment, quotedLine, uncomment_quoted hK, hequals, hvalue]
  rfl

theorem trim_quoted (t : Str) : trim (quoted t) = quoted t := by
  rw [trim, quoted, List.dropWhile_cons_of_neg (by decide), ← List.cons_append,
    List.rdropWhile_concat_neg _ _ _ (by decide)]

theorem quotedLine_eq (keyText valueText : Str) :
    quotedLine keyText valueText = quoted (keyText ++ '"' :: '=' :: '"' :: valueText) := by
  simp [quotedLine, quoted]

theorem directive_quotedLine (hK : Written key keyText) (hV : Written value valueText) :
    directive (quotedLine keyText valueText) =
      keyValueDirective (splitKeyValue (quotedLine keyText valueText)).1
        (splitKeyValue (quotedLine keyText valueText)).2 := by
  have htrim : trim (quotedLine keyText valueText) = quotedLine keyText valueText := by
    rw [quotedLine_eq, trim_quoted]
  rw [directive, removeInlineComment_quotedLine hK hV]
  simp only [htrim]
  rw [if_neg (by simp [quotedLine, quoted]), if_neg (by simp [quotedLine, quoted]),
    if_neg (by simp [quotedLine, quoted])]

theorem unquoteString_quoted (t : Str) : unquoteString (quoted t) = t := by
  have hlast : (quoted t).getLast? = some '"' := by
    rw [quoted, ← List.cons_append, List.getLast?_concat]
  rw [unquoteString, if_pos ⟨by simp [quoted], .inl ⟨rfl, hlast⟩⟩]
  simp [quoted]

theorem splitKeyValue_quotedLine (h : '=' ∉ keyText) :
    splitKeyValue (quotedLine keyText valueText) = (quoted keyText, quoted valueText) := by
  have hkey : ∀ c ∈ quoted keyText, decide (c ≠ '=') = true := by
    intro c hc
    rw [decide_eq_true_iff]
    rintro rfl
    simp_all [quoted]
  rw [splitKeyValue, if_pos (by simp [quotedLine]), quotedLine,
    List.takeWhile_append_of_pos hkey, List.dropWhile_append_of_pos hkey]
  simp [trim_quoted]

/-- A key with `=` in it is cut short. -/
theorem directive_ne_of_equals_mem (hK : Written key keyText) (hV : Written value valueText)
    (h : '=' ∈ key) : directive (quotedLine keyText valueText) ≠ .ok (.keyValue key value) := by
  intro heq
  rw [directive_quotedLine hK hV, keyValueDirective] at heq
  split at heq
  · cases heq
  split at heq
  · cases heq
  · cases heq
  rename_i key' value' hkey' _
  obtain ⟨rfl, rfl⟩ : key' = key ∧ value' = value := by simpa using heq
  refine equals_notMem_parseQuotedString (fun hmem => ?_) hkey' h
  have hsplit := mem_of_mem_unquoteString hmem
  rw [splitKeyValue, if_pos (by simp [quotedLine])] at hsplit
  have htake := List.mem_takeWhile_imp (mem_of_mem_trim hsplit)
  simp at htake

theorem directive_quotedLine_iff (hK : Written key keyText) (hV : Written value valueText) :
    directive (quotedLine keyText valueText) = .ok (.keyValue key value) ↔
      '=' ∉ key ∧ (keyText = key ∧ key.head? ≠ some '\x27') ∧
        valueText = value ∧ value.head? ≠ some '\x27' := by
  by_cases h : '=' ∈ key
  · exact iff_of_false (directive_ne_of_equals_mem hK hV h) (fun hn => hn.1 h)
  rw [← parseQuotedString_written hK, ← parseQuotedString_written hV,
    directive_quotedLine hK hV, splitKeyValue_quotedLine (mt (mem_equals_iff hK).mp h),
    keyValueDirective, if_neg (by simp [quoted]), unquoteString_quoted, unquoteString_quoted]
  cases parseQuotedString keyText <;> cases parseQuotedString valueText <;> simp [h]

/-! ## The round trip -/

/-- A line is recorded as a key and a value when this is what it says. -/
theorem roundTrips_iff_directive :
    RoundTrips key value keyText valueText ↔
      directive (quotedLine keyText valueText) = .ok (.keyValue key value) := by
  constructor
  · intro h
    have hfresh := h ⟨fun _ => false, fun _ => none⟩ (fun _ c => .ok (.ok, c)) [] 0 fresh
    rw [parseLine_eq] at hfresh
    generalize directive (quotedLine keyText valueText) = d at hfresh ⊢
    match d with
    | .error _ => simp [perform, ParseResult.error, ParseResult.ok] at hfresh
    | .ok .blank => simp [perform, fresh, record, Section.addKeyValue] at hfresh
    | .ok (.includes _) => simp [perform, ParseResult.error, ParseResult.ok] at hfresh
    | .ok (.header _) =>
        simp only [perform, enterSection] at hfresh
        split at hfresh <;> simp [fresh, record, Section.addKeyValue] at hfresh
    | .ok (.keyValue _ _) =>
        simp only [perform, fresh, record, Section.addKeyValue] at hfresh
        simp_all
  · intro h fs load file lineNum c
    rw [parseLine_eq, h]
    rfl

/-- A quoted key and a quoted value survive exactly when nothing in them is escaped, no
`=` stands in the key and neither begins with an apostrophe. -/
theorem quotedLine_roundTrips_iff (hK : Written key keyText) (hV : Written value valueText) :
    RoundTrips key value keyText valueText ↔
      keyText = key ∧ valueText = value ∧ '=' ∉ key ∧
        key.head? ≠ some '\x27' ∧ value.head? ≠ some '\x27' := by
  rw [roundTrips_iff_directive, directive_quotedLine_iff hK hV]
  tauto

theorem quotedLine_roundTrips_hash :
    RoundTrips "a b".toList "x # y".toList (writing "a b".toList) (writing "x # y".toList) :=
  (quotedLine_roundTrips_iff written_writing written_writing).mpr (by decide)

/-- A newline in a value comes back as a backslash and a letter. -/
theorem not_quotedLine_roundTrips :
    Written "k".toList (writing "k".toList) ∧ Written ['\n'] (writing ['\n']) ∧
      ¬ RoundTrips "k".toList ['\n'] (writing "k".toList) (writing ['\n']) := by
  refine ⟨written_writing, written_writing, fun h => ?_⟩
  have hrecorded := (directive_quotedLine_iff written_writing written_writing).mp
    (roundTrips_iff_directive.mp h)
  exact absurd hrecorded.2.2.1 (by decide)

end Lorelei.Support.ConfigFile
