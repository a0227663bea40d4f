import Lorelei.Support.ConfigFile

/-!
# Lines and what they mean

Lines as they are written: blanks around a content and a comment behind it, where the content
is empty, a section header, an include directive, a key with a value or a bare key. The keys
are identifiers. Every line is taken for what it is, except that a key that begins with
`include` is taken for an include directive (`directive_text_iff`).
-/

namespace Lorelei.Support.ConfigFile

/-! ## Texts -/

/-- A text of blanks. -/
abbrev Blanks := { s : Str // ∀ c ∈ s, isWhitespace c = true }

/-- A text that neither begins nor ends with a blank. -/
def Trimmed (s : Str) : Prop :=
  (∀ c ∈ s.head?, isWhitespace c = false) ∧ ∀ c ∈ s.getLast?, isWhitespace c = false

/-- A text that comment removal leaves as it is. -/
def Verbatim (s : Str) : Prop := removeInlineComment s = some s

/-- A character that is no quote, no backslash and no `#`. -/
def isPlain (c : Char) : Bool := !isQuote c && c != '\\' && c != '#'

/-- A character of an identifier; those beyond ASCII are allowed. -/
def isIdentifierChar (c : Char) : Bool := c.isAlphanum || c = '_' || 128 ≤ c.toNat

/-- A C identifier. -/
structure Identifier where
  head : Char
  tail : Str
  valid : ∀ c ∈ head :: tail, isIdentifierChar c = true
  noDigit : head.isDigit = false

def Identifier.text (key : Identifier) : Str := key.head :: key.tail

/-- What stands between the brackets of a section header, and the name it gives. -/
structure HeaderText where
  text : Str
  name : Str
  verbatim : Verbatim text
  nonblank : trim text ≠ []
  parses : parseQuotedString (trim text) = some name

/-- What stands behind the word `include`. -/
structure IncludeText where
  gap : Blanks
  file : Str
  separated : gap.val ≠ [] ∨ ∃ q rest, file = q :: rest ∧ isQuote q = true
  verbatim : Verbatim file
  nonempty : file ≠ []
  trimmed : Trimmed file

/-- What stands behind a `=`. -/
structure ValueText where
  gap : Blanks
  text : Str
  nonempty : text ≠ []
  trimmed : Trimmed text
  plain : ∀ c ∈ text, isPlain c = true

/-! ## Lines -/

inductive Content where
  | empty
  | header (name : HeaderText)
  | includes (file : IncludeText)
  | keyValue (key : Identifier) (gap : Blanks) (value : Option ValueText)
  | bareKey (key : Identifier)

/-- A line: its content with blanks around it, and a comment behind it. -/
structure Line where
  indent : Blanks
  content : Content
  trail : Blanks
  comment : Option Str

namespace Content

def valueText : Option ValueText → Str
  | none => []
  | some value => value.gap.val ++ value.text

def text : Content → Str
  | empty => []
  | header name => '[' :: (name.text ++ [']'])
  | includes file => "include".toList ++ (file.gap.val ++ file.file)
  | keyValue key gap value => key.text ++ (gap.val ++ '=' :: valueText value)
  | bareKey key => key.text

/-- The directive that a content stands for. -/
def meaning : Content → Directive
  | empty => .blank
  | header name => .header name.name
  | includes file => .includes (unquoteString file.file)
  | keyValue key _ value => .keyValue key.text ((value.map ValueText.text).getD [])
  | bareKey key => .keyValue key.text []

def key? : Content → Option Identifier
  | keyValue key _ _ => some key
  | bareKey key => some key
  | _ => none

end Content

namespace Line

def text (line : Line) : Str :=
  line.indent.val ++ line.content.text ++ line.trail.val ++
    match line.comment with
    | none => []
    | some rest => '#' :: rest

def meaning (line : Line) : Directive := line.content.meaning

def key? (line : Line) : Option Identifier := line.content.key?

end Line

/-! ## Comments -/

variable {s rest : Str} {c : Char} {quote : Option Char} {escaped : Bool}

/-- One character: comment removal keeps it, or ends there. -/
theorem uncomment_step (quote : Option Char) (escaped : Bool) (c : Char) :
    (∃ quote' escaped', ∀ s, uncomment quote escaped (c :: s) =
        (uncomment quote' escaped' s).map (c :: ·)) ∨
      ∀ s, uncomment quote escaped (c :: s) = some [] := by
  cases escaped with
  | true => exact .inl ⟨quote, false, fun s => by rw [uncomment]⟩
  | false =>
      by_cases hbackslash : c = '\\'
      · subst hbackslash
        exact .inl ⟨quote, true, fun s => by rw [uncomment]⟩
      cases quote with
      | none =>
          by_cases hquote : isQuote c = true
          · refine .inl ⟨some c, false, fun s => ?_⟩
            rw [uncomment, if_pos hquote]
            exact hbackslash
          by_cases hhash : c = '#'
          · refine .inr fun s => ?_
            rw [uncomment, if_neg hquote, if_pos hhash]
            exact hbackslash
          · refine .inl ⟨none, false, fun s => ?_⟩
            rw [uncomment, if_neg hquote, if_neg hhash]
            exact hbackslash
      | some q =>
          refine .inl ⟨if isQuote c ∧ c = q then none else some q, false, fun s => ?_⟩
          rw [uncomment]
          exact hbackslash

/-- What is kept as a whole is kept in front of more text, too. -/
theorem uncomment_append (h : uncomment quote escaped s = some s) (rest : Str) :
    uncomment quote escaped (s ++ rest) = (uncomment none false rest).map (s ++ ·) := by
  induction s generalizing quote escaped with
  | nil =>
      cases quote with
      | some q => cases escaped <;> exact nomatch h
      | none =>
          cases escaped with
          | true => exact nomatch h
          | false => simp
  | cons c s ih =>
      rcases uncomment_step quote escaped c with ⟨quote', escaped', hstep⟩ | hstop
      · rw [hstep] at h
        obtain ⟨s', hs', heq⟩ := Option.map_eq_some_iff.mp h
        cases heq
        rw [List.cons_append, hstep, ih hs', Option.map_map]
        rfl
      · rw [hstop] at h
        exact nomatch h

theorem Verbatim.append {t : Str} (hs : Verbatim s) (ht : Verbatim t) : Verbatim (s ++ t) := by
  rw [Verbatim, removeInlineComment, uncomment_append hs]
  exact Option.map_eq_some_iff.mpr ⟨t, ht, rfl⟩

theorem verbatim_of_plain (h : ∀ c ∈ s, isPlain c = true) : Verbatim s := by
  induction s with
  | nil => rfl
  | cons c s ih =>
      obtain ⟨hc, hs⟩ := List.forall_mem_cons.mp h
      simp only [isPlain, Bool.and_eq_true, Bool.not_eq_true', bne_iff_ne] at hc
      rw [Verbatim, removeInlineComment, uncomment, hc.1.1, if_neg Bool.false_ne_true, if_neg hc.2]
      · exact Option.map_eq_some_iff.mpr ⟨s, ih hs, rfl⟩
      · exact hc.1.2

theorem isPlain_of_isWhitespace (h : isWhitespace c = true) : isPlain c = true := by
  simp only [isWhitespace, Bool.or_eq_true, decide_eq_true_eq] at h
  rcases h with ((rfl | rfl) | rfl) | rfl <;> rfl

theorem Blanks.verbatim (blanks : Blanks) : Verbatim blanks.val :=
  verbatim_of_plain fun c hc => isPlain_of_isWhitespace (blanks.property c hc)

theorem verbatim_singleton (h : isPlain c = true) : Verbatim [c] :=
  verbatim_of_plain fun _ hc => List.mem_singleton.mp hc ▸ h

/-! ## Blanks -/

theorem rdropWhile_append_of_pos {p : Char → Bool} (h : ∀ c ∈ rest, p c = true) :
    (s ++ rest).rdropWhile p = s.rdropWhile p := by
  rw [List.rdropWhile, List.rdropWhile, List.reverse_append,
    List.dropWhile_append_of_pos fun c hc => h c (List.mem_reverse.mp hc)]

theorem trim_of_trimmed (hs : Trimmed s) (indent trail : Blanks) :
    trim (indent.val ++ s ++ trail.val) = s := by
  rw [trim, List.append_assoc, List.dropWhile_append_of_pos indent.property]
  cases s with
  | nil =>
      have hnil : trail.val.dropWhile isWhitespace = [] :=
        List.dropWhile_eq_nil_iff.mpr trail.property
      rw [List.nil_append, hnil, List.rdropWhile_nil]
  | cons c s =>
      have hhead := hs.1 c rfl
      rw [List.cons_append, List.dropWhile_cons_of_neg (by simp [hhead]), ← List.cons_append,
        rdropWhile_append_of_pos trail.property, List.rdropWhile_eq_self_iff]
      intro hne
      rw [hs.2 _ (List.getLast?_eq_some_getLast hne)]
      exact Bool.false_ne_true

theorem trim_trimmed (hs : Trimmed s) : trim s = s := by
  have htrim := trim_of_trimmed hs ⟨[], nofun⟩ ⟨[], nofun⟩
  rwa [List.nil_append, List.append_nil] at htrim

/-! ## Identifiers -/

/-- The characters that mean something in a line. -/
def special : Str := [' ', '\t', '\r', '\n', '"', '\x27', '\\', '#', '=', '[']

theorem notMem_special (h : isIdentifierChar c = true) : c ∉ special := by
  have hspecial : special.all (fun c => !isIdentifierChar c) = true := rfl
  intro hmem
  have hnot := List.all_eq_true.mp hspecial c hmem
  rw [h] at hnot
  exact nomatch hnot

theorem isPlain_of_notMem (h : c ∉ special) : isPlain c = true := by
  simp only [special, List.mem_cons, not_or] at h
  obtain ⟨-, -, -, -, hdouble, hsingle, hbackslash, hhash, -⟩ := h
  simp [isPlain, isQuote, hdouble, hsingle, hbackslash, hhash]

theorem isWhitespace_of_notMem (h : c ∉ special) : isWhitespace c = false := by
  simp only [special, List.mem_cons, not_or] at h
  obtain ⟨hspace, htab, hreturn, hnewline, -⟩ := h
  simp [isWhitespace, hspace, htab, hreturn, hnewline]

variable {key : Identifier}

theorem Identifier.notMem_special (hc : c ∈ key.text) : c ∉ special :=
  ConfigFile.notMem_special (key.valid c hc)

theorem Identifier.verbatim (key : Identifier) : Verbatim key.text :=
  verbatim_of_plain fun _ hc => isPlain_of_notMem (key.notMem_special hc)

theorem Identifier.trimmed (key : Identifier) : Trimmed key.text := by
  refine ⟨fun c hc => ?_, fun c hc => ?_⟩
  · exact isWhitespace_of_notMem (key.notMem_special (List.mem_of_head? hc))
  · exact isWhitespace_of_notMem (key.notMem_special (List.mem_of_getLast? hc))

theorem Identifier.equals_notMem (key : Identifier) : '=' ∉ key.text := fun h =>
  key.notMem_special h (by decide)

/-- What follows an identifier does not make it begin with `include`. -/
theorem include_prefix_append (hrest : ∀ c ∈ rest.head?, isIdentifierChar c = false) :
    "include".toList <+: key.text ++ rest ↔ "include".toList <+: key.text := by
  constructor
  · intro h
    rcases List.prefix_or_prefix_of_prefix h (List.prefix_append key.text rest) with
      hprefix | hprefix
    · exact hprefix
    · obtain ⟨t, ht⟩ := hprefix
      cases t with
      | nil => exact ⟨[], by rw [List.append_nil, ← ht, List.append_nil]⟩
      | cons c t =>
          have hword : ∀ c ∈ "include".toList, isIdentifierChar c = true :=
            List.all_eq_true.mp rfl
          rw [← ht, List.prefix_append_right_inj] at h
          obtain ⟨t', rfl⟩ := h
          have hc := hword c (ht ▸ List.mem_append_right _ List.mem_cons_self)
          rw [hrest c rfl] at hc
          exact nomatch hc
  · intro h
    exact h.trans (List.prefix_append _ _)

/-! ## Contents -/

theorem Content.verbatim (content : Content) : Verbatim content.text := by
  cases content with
  | empty => rfl
  | header name =>
      exact (verbatim_singleton rfl).append (name.verbatim.append (verbatim_singleton rfl))
  | includes file =>
      exact (verbatim_of_plain (List.all_eq_true.mp rfl)).append
        (file.gap.verbatim.append file.verbatim)
  | keyValue key gap value =>
      have hvalue : Verbatim (valueText value) := by
        cases value with
        | none => rfl
        | some value => exact value.gap.verbatim.append (verbatim_of_plain value.plain)
      exact key.verbatim.append (gap.verbatim.append ((verbatim_singleton rfl).append hvalue))
  | bareKey key => exact key.verbatim

theorem trimmed_append {t : Str} (hs : s ≠ []) (ht : t ≠ [])
    (hhead : ∀ c ∈ s.head?, isWhitespace c = false)
    (hlast : ∀ c ∈ t.getLast?, isWhitespace c = false) : Trimmed (s ++ t) := by
  refine ⟨fun c hc => hhead c ?_, fun c hc => hlast c ?_⟩
  · rwa [List.head?_append_of_ne_nil _ hs] at hc
  · rwa [List.getLast?_append_of_ne_nil _ ht] at hc

theorem Content.trimmed (content : Content) : Trimmed content.text := by
  have hsingle : ∀ {c c' : Char}, isWhitespace c = false → c' ∈ [c].head? →
      isWhitespace c' = false := by
    intro c c' hc hmem
    rwa [← Option.some.inj hmem]
  cases content with
  | empty => exact ⟨nofun, nofun⟩
  | header name =>
      show Trimmed (['['] ++ (name.text ++ [']']))
      refine trimmed_append (List.cons_ne_nil _ _) (by simp) (fun c => hsingle rfl) fun c hc => ?_
      rw [List.getLast?_concat] at hc
      exact hsingle rfl hc
  | includes file =>
      show Trimmed ("include".toList ++ (file.gap.val ++ file.file))
      refine trimmed_append (List.cons_ne_nil _ _) (by simp [file.nonempty])
        (fun c => hsingle (c := 'i') rfl) fun c hc => ?_
      rw [List.getLast?_append_of_ne_nil _ file.nonempty] at hc
      exact file.trimmed.2 c hc
  | keyValue key gap value =>
      show Trimmed (key.text ++ (gap.val ++ '=' :: valueText value))
      refine trimmed_append (List.cons_ne_nil _ _) (by simp) key.trimmed.1 fun c hc => ?_
      rw [List.getLast?_append_of_ne_nil _ (List.cons_ne_nil _ _)] at hc
      cases value with
      | none => exact hsingle rfl hc
      | some value =>
          rw [valueText, ← List.cons_append, List.getLast?_append_of_ne_nil _ value.nonempty] at hc
          exact value.trimmed.2 c hc
  | bareKey key => exact key.trimmed

/-- What is left of a line without its comment and the blanks around it. -/
theorem trim_removeInlineComment (line : Line) :
    (removeInlineComment line.text).map trim = some line.content.text := by
  have hverbatim := (line.indent.verbatim.append line.content.verbatim).append line.trail.verbatim
  have hcomment : removeInlineComment line.text =
      some (line.indent.val ++ line.content.text ++ line.trail.val) := by
    rw [Line.text, removeInlineComment, uncomment_append hverbatim]
    cases line.comment with
    | none => simp [uncomment]
    | some rest => simp [uncomment, isQuote]
  rw [hcomment, Option.map_some, trim_of_trimmed line.content.trimmed]

/-! ## Directives -/

theorem unquoteString_plain (h : ∀ c ∈ s.head?, isQuote c = false) : unquoteString s = s := by
  rw [unquoteString, if_neg]
  rintro ⟨-, ⟨hhead, -⟩ | ⟨hhead, -⟩⟩
  · exact nomatch (h _ hhead).symm
  · exact nomatch (h _ hhead).symm

theorem parseQuotedString_plain (h : ∀ c ∈ s.head?, isQuote c = false) :
    parseQuotedString s = some s := by
  cases s with
  | nil => rfl
  | cons c s => rw [parseQuotedString, h c rfl, if_neg Bool.false_ne_true]

theorem isQuote_of_isPlain (h : isPlain c = true) : isQuote c = false := by
  simp only [isPlain, Bool.and_eq_true, Bool.not_eq_true'] at h
  exact h.1.1

theorem keyValueDirective_eq (key : Identifier) {value : Str}
    (hvalue : ∀ c ∈ value, isPlain c = true) :
    keyValueDirective key.text value = .ok (.keyValue key.text value) := by
  have hkeyHead : ∀ c ∈ key.text.head?, isQuote c = false := fun c hc =>
    isQuote_of_isPlain (isPlain_of_notMem (key.notMem_special (List.mem_of_head? hc)))
  have hvalueHead : ∀ c ∈ value.head?, isQuote c = false := fun c hc =>
    isQuote_of_isPlain (hvalue c (List.mem_of_head? hc))
  have hne : key.text ≠ [] := List.cons_ne_nil _ _
  rw [keyValueDirective, if_neg hne, unquoteString_plain hkeyHead,
    unquoteString_plain hvalueHead, parseQuotedString_plain hkeyHead,
    parseQuotedString_plain hvalueHead]

theorem directive_text (line : Line) : directive line.text =
    if line.content.text = [] then .ok .blank
    else if "include".toList <+: line.content.text then
      includeDirective (line.content.text.drop 7)
    else if line.content.text.head? = some '[' ∧ line.content.text.getLast? = some ']' then
      headerDirective line.content.text.tail.dropLast
    else keyValueDirective (splitKeyValue line.content.text).1
      (splitKeyValue line.content.text).2 := by
  obtain ⟨uncommented, huncommented, htrim⟩ :=
    Option.map_eq_some_iff.mp (trim_removeInlineComment line)
  rw [directive, huncommented, ← htrim]

/-- A line that is neither empty, nor an include directive, nor a header. -/
theorem directive_of_key {line : Line} {key : Identifier} {rest : Str}
    (htext : line.content.text = key.text ++ rest)
    (hrest : ∀ c ∈ rest.head?, isIdentifierChar c = false) :
    directive line.text =
      if "include".toList <+: key.text then includeDirective (line.content.text.drop 7)
      else keyValueDirective (splitKeyValue line.content.text).1
        (splitKeyValue line.content.text).2 := by
  have hne : key.text ++ rest ≠ [] := List.cons_ne_nil _ _
  have hbracket : ¬ ((key.text ++ rest).head? = some '[' ∧
      (key.text ++ rest).getLast? = some ']') := by
    rintro ⟨hhead, -⟩
    refine key.notMem_special (c := '[') (List.mem_of_head? ?_) (by decide)
    exact hhead
  rw [directive_text, htext, if_neg hne, if_neg hbracket]
  simp only [include_prefix_append hrest]

theorem splitKeyValue_key (key : Identifier) : splitKeyValue key.text = (key.text, []) := by
  rw [splitKeyValue, if_neg key.equals_notMem, trim_trimmed key.trimmed]

theorem splitKeyValue_value (key : Identifier) (gap : Blanks) (value : Option ValueText) :
    splitKeyValue (key.text ++ (gap.val ++ '=' :: Content.valueText value)) =
      (key.text, (value.map ValueText.text).getD []) := by
  have hfront : ∀ c ∈ key.text ++ gap.val, decide (c ≠ '=') = true := by
    intro c hc
    refine decide_eq_true ?_
    rintro rfl
    rcases List.mem_append.mp hc with hc | hc
    · exact key.equals_notMem hc
    · exact nomatch gap.property _ hc
  have hkey := trim_of_trimmed key.trimmed ⟨[], nofun⟩ gap
  have hvalue : trim (Content.valueText value) = (value.map ValueText.text).getD [] := by
    cases value with
    | none => rfl
    | some value =>
        have htrim := trim_of_trimmed value.trimmed value.gap ⟨[], nofun⟩
        rwa [List.append_nil] at htrim
  have htrimmed : Trimmed ((value.map ValueText.text).getD []) := by
    cases value with
    | none => exact ⟨nofun, nofun⟩
    | some value => exact value.trimmed
  rw [← List.append_assoc, splitKeyValue, if_pos (by simp), List.takeWhile_append_of_pos hfront,
    List.dropWhile_append_of_pos hfront, List.takeWhile_cons_of_neg (by simp),
    List.dropWhile_cons_of_neg (by simp), List.append_nil, List.tail_cons, hvalue,
    trim_trimmed htrimmed]
  rw [List.nil_append] at hkey
  rw [hkey]

theorem includeDirective_ne (text : Str) (key value : Str) :
    includeDirective text ≠ .ok (.keyValue key value) := by
  rw [includeDirective]
  split <;> simp

theorem directive_key_iff (line : Line) {key : Identifier} {rest value : Str}
    (htext : line.content.text = key.text ++ rest)
    (hrest : ∀ c ∈ rest.head?, isIdentifierChar c = false)
    (hsplit : splitKeyValue line.content.text = (key.text, value))
    (hvalue : ∀ c ∈ value, isPlain c = true) :
    directive line.text = .ok (.keyValue key.text value) ↔ ¬ "include".toList <+: key.text := by
  rw [directive_of_key htext hrest, hsplit, keyValueDirective_eq key hvalue]
  constructor
  · intro h hprefix
    rw [if_pos hprefix] at h
    exact includeDirective_ne _ _ _ h
  · intro h
    rw [if_neg h]

/-- Every line is taken for what it is, unless it has a key that begins with `include`. -/
theorem directive_text_iff (line : Line) : directive line.text = .ok line.meaning ↔
    ∀ key ∈ line.key?, ¬ "include".toList <+: key.text := by
  obtain ⟨indent, content, trail, comment⟩ := line
  cases content with
  | empty => exact iff_of_true (directive_text _) (by simp [Line.key?, Content.key?])
  | header name =>
      refine iff_of_true ?_ (by simp [Line.key?, Content.key?])
      have htext : (Content.header name).text = '[' :: (name.text ++ [']']) := rfl
      rw [directive_text, htext, if_neg (List.cons_ne_nil _ _), if_neg (by simp), if_pos]
      · rw [List.tail_cons, List.dropLast_concat, headerDirective, if_neg name.nonblank,
          name.parses]
        rfl
      · rw [← List.cons_append, List.getLast?_concat]
        exact ⟨rfl, rfl⟩
  | includes file =>
      refine iff_of_true ?_ (by simp [Line.key?, Content.key?])
      have htext : (Content.includes file).text =
        "include".toList ++ (file.gap.val ++ file.file) := rfl
      have hdrop : ("include".toList ++ (file.gap.val ++ file.file)).drop 7 =
        file.gap.val ++ file.file := List.drop_left' rfl
      have htrim := trim_of_trimmed file.trimmed file.gap ⟨[], List.forall_mem_nil _⟩
      rw [List.append_nil] at htrim
      rw [directive_text, htext, if_neg (by simp), if_pos (List.prefix_append _ _), hdrop,
        includeDirective, htrim, if_neg file.nonempty]
      rfl
  | keyValue key gap value =>
      have hrest : ∀ c ∈ (gap.val ++ '=' :: Content.valueText value).head?,
          isIdentifierChar c = false := by
        intro c hc
        by_contra hchar
        rw [Bool.not_eq_false] at hchar
        cases hgap : gap.val with
        | nil =>
            rw [hgap] at hc
            cases hc
            exact absurd hchar (by decide)
        | cons c' gap' =>
            rw [hgap] at hc
            cases hc
            have hblank := gap.property c (hgap ▸ List.mem_cons_self)
            rw [isWhitespace_of_notMem (notMem_special hchar)] at hblank
            exact absurd hblank Bool.false_ne_true
      have hplain : ∀ c ∈ (value.map ValueText.text).getD [], isPlain c = true := by
        cases value with
        | none => exact List.forall_mem_nil _
        | some value => exact value.plain
      refine Iff.trans (directive_key_iff ⟨indent, .keyValue key gap value, trail, comment⟩ rfl
        hrest (splitKeyValue_value key gap value) hplain) ?_
      simp [Line.key?, Content.key?]
  | bareKey key =>
      refine Iff.trans (directive_key_iff ⟨indent, .bareKey key, trail, comment⟩
        (List.append_nil key.text).symm (by simp) (splitKeyValue_key key)
          (List.forall_mem_nil _)) ?_
      simp [Line.key?, Content.key?]

end Lorelei.Support.ConfigFile
