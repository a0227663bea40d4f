import Lorelei.Support.ConfigIndex
import Lorelei.TLC.Stat

/-!
# The functions of a library

`LoreMakeThunk.py` makes the symbol list of a thunk from what `nm` says about the library, and
gives it to `TLC stat` as a config file. The script and `TLC` read that file by rules of their
own. What the library exports is what `stat` accounts for, as a function or as a missing one,
unless a name begins with `include`: then there is no summary (`stat_exported`).
-/

namespace Lorelei.MakeThunk

open Support Support.ConfigFile LastNamed

/-! ## Texts in Python -/

/-- `str.isspace`, of one character. -/
def isSpace (c : Char) : Bool :=
  let n := c.toNat
  (0x09 ≤ n && n ≤ 0x0d) || (0x1c ≤ n && n ≤ 0x20) || n = 0x85 || n = 0xa0 || n = 0x1680 ||
    (0x2000 ≤ n && n ≤ 0x200a) || n = 0x2028 || n = 0x2029 || n = 0x202f || n = 0x205f ||
    n = 0x3000

/-- The characters that end a line for `str.splitlines`. -/
def isLineBreak (c : Char) : Bool :=
  let n := c.toNat
  (0x0a ≤ n && n ≤ 0x0d) || (0x1c ≤ n && n ≤ 0x1e) || n = 0x85 || n = 0x2028 || n = 0x2029

/-- The loop of `str.splitlines`, with the part of a line read so far. -/
def splitlinesFrom (line : Str) : Str → List Str
  | [] => if line = [] then [] else [line]
  | '\r' :: '\n' :: s => line :: splitlinesFrom [] s
  | c :: s =>
      if isLineBreak c then line :: splitlinesFrom [] s else splitlinesFrom (line ++ [c]) s

def splitlines (text : Str) : List Str := splitlinesFrom [] text

/-- The loop of `str.split` without a separator, with the part of a word read so far. -/
def wordsFrom (word : Str) : Str → List Str
  | [] => if word = [] then [] else [word]
  | c :: s =>
      if isSpace c then if word = [] then wordsFrom [] s else word :: wordsFrom [] s
      else wordsFrom (word ++ [c]) s

def words (text : Str) : List Str := wordsFrom [] text

/-- `str.strip`. -/
def strip (s : Str) : Str := (s.dropWhile isSpace).rdropWhile isSpace

/-! ## The script -/

/-- A symbol without its version. -/
def unversioned (symbol : Str) : Str := symbol.takeWhile (· ≠ '@')

/-- The body of the loop of `dump_functions`. The type is the last word but one, which is also
the first one if there are two. -/
def dumpLine (funcs : List Str) (line : Str) : List Str :=
  match (words line).reverse with
  | symbol :: typ :: _ =>
      let name := unversioned symbol
      if (typ = ['T'] ∨ typ = ['W']) ∧ name ≠ [] ∧ name ∉ funcs then funcs ++ [name] else funcs
  | _ => funcs

/-- `dump_functions`, on what `nm` has written. -/
def dumpFunctions (out : Str) : List Str := (splitlines out).foldl dumpLine []

/-- `gen_symbols`. -/
def genSymbols (funcs : List Str) : Str :=
  "[Function]\n".toList ++ ['\n'].intercalate funcs ++ ['\n']

/-- The body of the loop of `functions_from_symbols`: the functions and the section. -/
def readSymbolsLine (r : List Str × Option Str) (line : Str) : List Str × Option Str :=
  let s := strip line
  if s = [] ∨ s.head? = some '#' then r
  else if s.head? = some '[' ∧ s.getLast? = some ']' then
    (r.1, some (str.toLower (strip s.tail.dropLast)))
  else if r.2 = some "function".toList then (r.1 ++ [s], r.2)
  else r

/-- `functions_from_symbols`, on the text of the file. -/
def functionsFromSymbols (text : Str) : List Str :=
  ((splitlines text).foldl readSymbolsLine ([], none)).1

/-! ## What is exported -/

/-- A line of `nm` lists a function that is exported under this name. -/
def Lists (line name : Str) : Prop :=
  name ≠ [] ∧ ∃ front typ symbol, words line = front ++ [typ, symbol] ∧
    (typ = ['T'] ∨ typ = ['W']) ∧ unversioned symbol = name

/-- The library exports a function under this name. -/
def Exported (out name : Str) : Prop := ∃ line ∈ splitlines out, Lists line name

variable {out line name : Str} {funcs : List Str}

theorem Lists.unique {name' : Str} (h : Lists line name) (h' : Lists line name') :
    name = name' := by
  obtain ⟨-, front, typ, symbol, hwords, -, rfl⟩ := h
  obtain ⟨-, front', typ', symbol', hwords', -, rfl⟩ := h'
  have hlast := List.append_inj_right' (hwords.symm.trans hwords') rfl
  obtain ⟨-, rfl⟩ : typ = typ' ∧ symbol = symbol' := by simpa using hlast
  rfl

/-- A line adds the function it lists, unless it is there. -/
theorem dumpLine_cases (funcs : List Str) (line : Str) :
    (∃ name, Lists line name ∧
        dumpLine funcs line = if name ∈ funcs then funcs else funcs ++ [name]) ∨
      (∀ name, ¬ Lists line name) ∧ dumpLine funcs line = funcs := by
  rw [dumpLine]
  split
  next symbol typ rest hwords =>
    have hline : words line = rest.reverse ++ [typ, symbol] := by
      rw [← List.reverse_reverse (words line), hwords]
      simp
    by_cases hlists : (typ = ['T'] ∨ typ = ['W']) ∧ unversioned symbol ≠ []
    · refine .inl ⟨unversioned symbol,
        ⟨hlists.2, rest.reverse, typ, symbol, hline, hlists.1, rfl⟩, ?_⟩
      by_cases hmem : unversioned symbol ∈ funcs <;> simp [hlists, hmem]
    · refine .inr ⟨?_, if_neg fun h => hlists ⟨h.1, h.2.1⟩⟩
      rintro name ⟨hne, front, typ', symbol', heq, htyp, rfl⟩
      have hlast := List.append_inj_right' (hline.symm.trans heq) rfl
      obtain ⟨rfl, rfl⟩ : typ = typ' ∧ symbol = symbol' := by simpa using hlast
      exact hlists ⟨htyp, hne⟩
  next hnot =>
    refine .inr ⟨?_, rfl⟩
    rintro name ⟨-, front, typ, symbol, heq, -, -⟩
    refine hnot symbol typ front.reverse ?_
    rw [heq]
    simp

theorem mem_dumpLine : name ∈ dumpLine funcs line ↔ name ∈ funcs ∨ Lists line name := by
  obtain ⟨name', hlists, hline⟩ | ⟨hnone, hline⟩ := dumpLine_cases funcs line
  · have hname : Lists line name ↔ name = name' := ⟨fun h => h.unique hlists, fun h => h ▸ hlists⟩
    rw [hline, hname]
    split
    next hmem => exact ⟨.inl, fun h => h.elim id fun h => h ▸ hmem⟩
    next => rw [List.mem_append, List.mem_singleton]
  · rw [hline, or_iff_left (hnone name)]

theorem nodup_dumpLine (h : funcs.Nodup) (line : Str) : (dumpLine funcs line).Nodup := by
  obtain ⟨name, -, hline⟩ | ⟨-, hline⟩ := dumpLine_cases funcs line
  · rw [hline]
    split
    next => exact h
    next hnew => exact List.nodup_append_comm.mp (List.nodup_cons.mpr ⟨hnew, h⟩)
  · rwa [hline]

theorem mem_dumpFunctions : name ∈ dumpFunctions out ↔ Exported out name := by
  have hfold (lines : List Str) (funcs : List Str) : name ∈ lines.foldl dumpLine funcs ↔
      name ∈ funcs ∨ ∃ line ∈ lines, Lists line name := by
    induction lines generalizing funcs with
    | nil => simp
    | cons line lines ih =>
        rw [List.foldl_cons, ih, mem_dumpLine, List.exists_mem_cons_iff, or_assoc]
  rw [dumpFunctions, hfold, or_iff_right List.not_mem_nil, Exported]

theorem nodup_dumpFunctions (out : Str) : (dumpFunctions out).Nodup := by
  rw [dumpFunctions]
  generalize splitlines out = lines
  induction lines using List.reverseRecOn with
  | nil => exact List.nodup_nil
  | append_singleton lines line ih =>
      rw [List.foldl_concat]
      exact nodup_dumpLine ih line

/-! ## Names -/

/-- The characters apart from blanks that mean something in a line of a config file. -/
def reserved : Str := ['"', '\x27', '\\', '#', '=', '[']

theorem isSpace_eq_false_of_mem_wordsFrom {word text w : Str} {c : Char}
    (hword : ∀ c ∈ word, isSpace c = false) (hw : w ∈ wordsFrom word text) (hc : c ∈ w) :
    isSpace c = false := by
  induction text generalizing word with
  | nil =>
      rw [wordsFrom] at hw
      split at hw
      · exact nomatch hw
      · exact hword c (List.mem_singleton.mp hw ▸ hc)
  | cons c' text ih =>
      rw [wordsFrom] at hw
      split at hw
      case isTrue =>
        split at hw
        · exact ih (List.forall_mem_nil _) hw
        · rcases List.mem_cons.mp hw with rfl | hw
          · exact hword c hc
          · exact ih (List.forall_mem_nil _) hw
      case isFalse hspace =>
        refine ih (fun c'' hc'' => ?_) hw
        rcases List.mem_append.mp hc'' with hold | hnew
        · exact hword c'' hold
        · rw [List.mem_singleton.mp hnew]
          exact eq_false_of_ne_true hspace

theorem Exported.isSpace_eq_false (h : Exported out name) {c : Char} (hc : c ∈ name) :
    isSpace c = false := by
  obtain ⟨line, -, -, front, typ, symbol, hwords, -, rfl⟩ := h
  have hword : symbol ∈ wordsFrom [] line := by
    rw [← words, hwords]
    simp
  exact isSpace_eq_false_of_mem_wordsFrom (List.forall_mem_nil _) hword
    (List.takeWhile_subset _ hc)

/-- A name that `nm` can list and that has no reserved character in it. -/
def Plain (name : Str) : Prop :=
  name ≠ [] ∧ ∀ c ∈ name, isSpace c = false ∧ c ∉ reserved

theorem Plain.notMem_special (h : Plain name) {c : Char} (hc : c ∈ name) : c ∉ special := by
  obtain ⟨hspace, hreserved⟩ := h.2 c hc
  simp only [special, List.mem_cons, List.not_mem_nil, or_false]
  rintro (rfl | rfl | rfl | rfl | hrest)
  · cases hspace
  · cases hspace
  · cases hspace
  · cases hspace
  · exact hreserved (by simpa [reserved] using hrest)

/-! ## What the script reads back -/

theorem isSpace_of_isLineBreak {c : Char} (h : isLineBreak c = true) : isSpace c = true := by
  simp only [isLineBreak, isSpace, Bool.or_eq_true, Bool.and_eq_true, decide_eq_true_eq] at h ⊢
  omega

theorem splitlinesFrom_append {rest : Str} (hline : ∀ c ∈ line, isLineBreak c = false)
    (front : Str) :
    splitlinesFrom front (line ++ '\n' :: rest) = (front ++ line) :: splitlinesFrom [] rest := by
  induction line generalizing front with
  | nil =>
      rw [List.nil_append, List.append_nil, splitlinesFrom]
      · exact if_pos rfl
      · exact fun _ h => nomatch h
  | cons c line ih =>
      obtain ⟨hc, hline⟩ := List.forall_mem_cons.mp hline
      rw [List.cons_append, splitlinesFrom, hc, if_neg Bool.false_ne_true, ih hline]
      · simp
      · rintro s rfl
        exact nomatch hc

/-- A text of lines without breaks. -/
theorem splitlines_flatMap {lines : List Str}
    (hlines : ∀ line ∈ lines, ∀ c ∈ line, isLineBreak c = false) :
    splitlines (lines.flatMap (· ++ ['\n'])) = lines := by
  induction lines with
  | nil => rfl
  | cons line lines ih =>
      obtain ⟨hline, hlines⟩ := List.forall_mem_cons.mp hlines
      rw [List.flatMap_cons, List.append_assoc, List.singleton_append, splitlines,
        splitlinesFrom_append hline, List.nil_append]
      exact congrArg _ (ih hlines)

theorem getlinesFrom_append {rest : Str} (hline : '\n' ∉ line) (front : Str) :
    getlinesFrom front (line ++ '\n' :: rest) = (front ++ line) :: getlinesFrom [] rest := by
  induction line generalizing front with
  | nil => rw [List.nil_append, List.append_nil, getlinesFrom]
  | cons c line ih =>
      rw [List.mem_cons, not_or] at hline
      obtain ⟨hc, hline⟩ := hline
      rw [List.cons_append, getlinesFrom, ih hline]
      · simp
      · exact Ne.symm hc

theorem getlines_flatMap {lines : List Str} (hlines : ∀ line ∈ lines, '\n' ∉ line) :
    getlines (lines.flatMap (· ++ ['\n'])) = lines := by
  induction lines with
  | nil => rfl
  | cons line lines ih =>
      obtain ⟨hline, hlines⟩ := List.forall_mem_cons.mp hlines
      rw [List.flatMap_cons, List.append_assoc, List.singleton_append, getlines,
        getlinesFrom_append hline, List.nil_append]
      exact congrArg _ (ih hlines)

theorem genSymbols_eq (hne : funcs ≠ []) :
    genSymbols funcs = ("[Function]".toList :: funcs).flatMap (· ++ ['\n']) := by
  have hjoin : ['\n'].intercalate funcs ++ ['\n'] = funcs.flatMap (· ++ ['\n']) := by
    induction funcs with
    | nil => exact absurd rfl hne
    | cons f funcs ih =>
        cases funcs with
        | nil => simp
        | cons f' funcs =>
            rw [List.intercalate_cons_cons, List.append_assoc, ih (List.cons_ne_nil _ _)]
            simp
  have hheader : "[Function]\n".toList = "[Function]".toList ++ ['\n'] := by decide
  show "[Function]\n".toList ++ ['\n'].intercalate funcs ++ ['\n'] = _
  rw [List.append_assoc, hjoin, hheader, List.flatMap_cons]

theorem strip_eq_self (h : ∀ c ∈ name, isSpace c = false) : strip name = name := by
  have hdrop : name.dropWhile isSpace = name := by
    cases name with
    | nil => rfl
    | cons c name => exact List.dropWhile_cons_of_neg (by simp [h c List.mem_cons_self])
  rw [strip, hdrop, List.rdropWhile_eq_self_iff]
  intro hne
  simp [h _ (List.getLast_mem hne)]

/-- The script reads back the names that it has written. -/
theorem functionsFromSymbols_genSymbols (hne : funcs ≠ []) (hplain : ∀ name ∈ funcs, Plain name) :
    functionsFromSymbols (genSymbols funcs) = funcs := by
  have hheader : "[Function]".toList.any isLineBreak = false := by decide
  have hbreak : ∀ line ∈ "[Function]".toList :: funcs, ∀ c ∈ line, isLineBreak c = false := by
    refine List.forall_mem_cons.mpr ⟨fun c hc => ?_, fun name hname c hc => ?_⟩
    · exact eq_false_of_ne_true (List.any_eq_false.mp hheader c hc)
    by_contra h
    have hspace := isSpace_of_isLineBreak (eq_true_of_ne_false h)
    rw [((hplain name hname).2 c hc).1] at hspace
    exact nomatch hspace
  have hfold (names read : List Str) (hnames : ∀ name ∈ names, Plain name) :
      names.foldl readSymbolsLine (read, some "function".toList) =
        (read ++ names, some "function".toList) := by
    induction names generalizing read with
    | nil => rw [List.append_nil]; rfl
    | cons name names ih =>
        obtain ⟨hname, hnames⟩ := List.forall_mem_cons.mp hnames
        have hstrip : strip name = name := strip_eq_self fun c hc => (hname.2 c hc).1
        have hhead {c : Char} (hc : c ∈ special) : name.head? ≠ some c := fun h =>
          hname.notMem_special (List.mem_of_head? h) hc
        rw [List.foldl_cons, readSymbolsLine, hstrip]
        dsimp only
        rw [if_neg, if_neg, if_pos rfl, ih (read ++ [name]) hnames, List.append_assoc,
          List.singleton_append]
        · exact fun h => hhead (by decide) h.1
        · exact fun h => h.elim hname.1 (hhead (by decide))
  have hsection : readSymbolsLine ([], none) "[Function]".toList =
      ([], some "function".toList) := by decide
  rw [functionsFromSymbols, genSymbols_eq hne, splitlines_flatMap hbreak, List.foldl_cons, hsection,
    hfold funcs [] hplain, List.nil_append]

/-! ## What `TLC` reads -/

theorem trim_of_notMem {text : Str} (h : ∀ c ∈ text, c ∉ special) : trim text = text :=
  trim_trimmed ⟨fun c hc => isWhitespace_of_notMem (h c (List.mem_of_head? hc)),
    fun c hc => isWhitespace_of_notMem (h c (List.mem_of_getLast? hc))⟩

theorem isQuote_of_mem_head {text : Str} (h : ∀ c ∈ text, c ∉ special) :
    ∀ c ∈ text.head?, isQuote c = false := fun c hc =>
  isQuote_of_isPlain (isPlain_of_notMem (h c (List.mem_of_head? hc)))

/-- A name is a key of its own, unless it begins as an include directive does. -/
theorem Plain.directive (h : Plain name) :
    directive name = if "include".toList <+: name then includeDirective (name.drop 7)
      else .ok (.keyValue name []) := by
  have hverbatim : removeInlineComment name = some name :=
    verbatim_of_plain fun c hc => isPlain_of_notMem (h.notMem_special hc)
  have htrim : trim name = name := trim_of_notMem fun c => h.notMem_special
  have hquote := isQuote_of_mem_head fun c => h.notMem_special (c := c)
  have hbracket : ¬ (name.head? = some '[' ∧ name.getLast? = some ']') := fun hb =>
    h.notMem_special (List.mem_of_head? hb.1) (by decide)
  have hequals : '=' ∉ name := fun hc => h.notMem_special hc (by decide)
  rw [ConfigFile.directive, hverbatim]
  dsimp only
  rw [htrim, if_neg h.1, if_neg hbracket, splitKeyValue, if_neg hequals, htrim, keyValueDirective,
    if_neg h.1, unquoteString_plain hquote, parseQuotedString_plain hquote]
  rfl

/-- An include directive that a name is taken for names no file, or one that is not there. -/
theorem Plain.parseLine_include {fs : FileSystem}
    {load : Str → ConfigFile → Run (ParseResult × ConfigFile)} {file : Str} {lineNum : Nat}
    {c : ConfigFile} {rest : Str} (h : Plain ("include".toList ++ rest))
    (hmissing : rest ≠ [] → fs.pathExists (target file rest) = false)
    (hready : c.baseDirStack.head? = some (baseDirOf file)) :
    ∃ e : ParseResult, e.success = false ∧
      parseLine fs load ("include".toList ++ rest) file lineNum c = .ok (e, c) := by
  have hrest : ∀ c ∈ rest, c ∉ special := fun c hc =>
    h.notMem_special (List.mem_append_right _ hc)
  have htrim := trim_of_notMem hrest
  have hquote := isQuote_of_mem_head hrest
  have hdrop : ("include".toList ++ rest).drop 7 = rest := rfl
  rw [parseLine_eq, h.directive, if_pos (List.prefix_append _ _), hdrop, includeDirective, htrim]
  by_cases hempty : rest = []
  · rw [if_pos hempty]
    exact ⟨_, rfl, rfl⟩
  · rw [if_neg hempty, unquoteString_plain hquote]
    have hpath : fs.pathExists (joinPath (c.baseDirStack.headD ['.']) rest) = false := by
      rw [List.headD_eq_head?_getD, hready]
      exact hmissing hempty
    dsimp only [perform]
    rw [if_neg (ne_true_of_eq_false hpath)]
    exact ⟨_, rfl, rfl⟩

/-- A list of names is loaded name by name, up to one that begins with `include`. -/
theorem parseLines_names {fs : FileSystem}
    {load : Str → ConfigFile → Run (ParseResult × ConfigFile)} {file : Str} {names : List Str}
    (hplain : ∀ name ∈ names, Plain name)
    (hmissing : ∀ rest, "include".toList ++ rest ∈ names → rest ≠ [] →
      fs.pathExists (target file rest) = false) (lineNum : Nat) (c : ConfigFile)
    (hready : c.baseDirStack.head? = some (baseDirOf file)) :
    if ∃ name ∈ names, "include".toList <+: name then
      ∃ e : ParseResult, e.success = false ∧
        parseLines fs load file lineNum names c = .ok (e, fresh)
    else parseLines fs load file lineNum names c =
      .ok (.ok, { c.replay (names.map (Edit.assign · [])) with
        baseDirStack := c.baseDirStack.tail }) := by
  induction names generalizing lineNum c with
  | nil =>
      rw [if_neg (by simp), parseLines, popBaseDir_of_ready hready]
      rfl
  | cons name names ih =>
      obtain ⟨hname, hnames⟩ := List.forall_mem_cons.mp hplain
      by_cases hinclude : "include".toList <+: name
      · rw [if_pos ⟨name, List.mem_cons_self, hinclude⟩]
        obtain ⟨rest, rfl⟩ := hinclude
        obtain ⟨e, he, hparse⟩ : ∃ e : ParseResult, e.success = false ∧
            parseLine fs load ("include".toList ++ rest) file (lineNum + 1) c = .ok (e, c) :=
          hname.parseLine_include (hmissing rest List.mem_cons_self) hready
        exact ⟨e, he, parseLines_of_error he hparse hready⟩
      · have hparse :
            parseLine fs load name file (lineNum + 1) c = .ok (.ok, c.record name []) := by
          rw [parseLine_eq, hname.directive, if_neg hinclude]
          rfl
        have hrest := ih hnames (fun rest hmem => hmissing rest (List.mem_cons_of_mem _ hmem))
          (lineNum + 1) (c.record name []) hready
        have hiff : (∃ name' ∈ name :: names, "include".toList <+: name') ↔
            ∃ name' ∈ names, "include".toList <+: name' := by
          rw [List.exists_mem_cons_iff, or_iff_right hinclude]
        rw [parseLines_of_ok hparse, if_congr hiff rfl rfl]
        exact hrest

/-! ## What `stat` accounts for -/

/-- The keys of a section, in the order in which a loop over it meets them. -/
def sectionKeys (config : ConfigFile) (name : String) : List String :=
  ((config.get name.toList).map fun s => s.keyValues.map fun kv => String.ofList kv.1).getD []

/-- The sections that `stat` goes through. -/
def thunkConfig (config : ConfigFile) : TLC.ThunkConfig where
  functions dir := sectionKeys config (TLC.sectionName dir)
  callbacks := sectionKeys config "Callback"

/-- The edits that the symbol list asks for. -/
def symbolEdits (funcs : List Str) : List Edit :=
  .enter "Function".toList :: funcs.map (Edit.assign · [])

theorem ofEdits_symbolEdits (funcs : List Str) : Journal.ofEdits (symbolEdits funcs) =
    ⟨"Function".toList, ["Function".toList], funcs.map fun f => ("Function".toList, f, [])⟩ := by
  have hassign (j : Journal) : (funcs.map (Edit.assign · [])).foldl Journal.add j =
      { j with assigned := j.assigned ++ funcs.map fun f => (j.current, f, []) } := by
    induction funcs generalizing j with
    | nil => simp
    | cons f funcs ih =>
        rw [List.map_cons, List.foldl_cons, ih]
        simp [Journal.add]
  rw [Journal.ofEdits, symbolEdits, List.foldl_cons, hassign]
  rfl

theorem written_symbolEdits (funcs : List Str) (name : Str) :
    (Journal.ofEdits (symbolEdits funcs)).written name =
      if name = "Function".toList then funcs.map fun f => (f, []) else [] := by
  rw [ofEdits_symbolEdits, Journal.written]
  dsimp only
  by_cases hname : name = "Function".toList
  · rw [if_pos hname, List.filter_eq_self.mpr, List.map_map]
    · rfl
    · simp [hname]
  · rw [if_neg hname, List.filter_eq_nil_iff.mpr, List.map_nil]
    intro entry hentry
    obtain ⟨f, -, rfl⟩ := List.mem_map.mp hentry
    exact fun heq => hname (of_decide_eq_true heq).symm

/-- The section of the functions has them as its keys, and no other section has any. -/
theorem sectionKeys_of_tracks {config : ConfigFile} (hnodup : funcs.Nodup)
    (h : Tracks config (.ofEdits (symbolEdits funcs))) (name : String) :
    sectionKeys config name = if name = "Function" then funcs.map String.ofList else [] := by
  have hkeys (s : Section) (hget : config.get name.toList = some s) :
      s.keyValues.map (fun kv => String.ofList kv.1) =
        if name = "Function" then funcs.map String.ofList else [] := by
    obtain ⟨hmem, hname⟩ := (h.get_iff _ _).mp hget
    rw [h.keyValues_eq hmem, hname, written_symbolEdits]
    by_cases hfunction : name = "Function"
    · have hfst : (funcs.map fun f => (f, ([] : Str))).map Prod.fst = funcs := by
        rw [List.map_map]
        exact List.map_id' funcs
      rw [if_pos (by rw [hfunction]), if_pos hfunction, upsertAll_of_nodup (hfst.symm ▸ hnodup)]
      simp
    · rw [if_neg fun heq => hfunction (String.toList_inj.mp heq), if_neg hfunction]
      rfl
  rw [sectionKeys]
  cases hget : config.get name.toList with
  | some s => exact hkeys s hget
  | none =>
      rw [if_neg]
      · rfl
      rintro rfl
      have hnames := h.names
      rw [ofEdits_symbolEdits] at hnames
      have hmem : "Function".toList ∈ config.sections.map Section.name := by
        rw [hnames]
        show "Function".toList ∈ upsertAll id [globalSectionName, "Function".toList]
        decide
      obtain ⟨s, hs, hname⟩ := List.mem_map.mp hmem
      rw [(h.get_iff _ s).mpr ⟨hs, hname⟩] at hget
      exact nomatch hget

/-- Loading a list of functions fails at a name that begins with `include`, and otherwise enters
the names in their section. -/
theorem load_genSymbols {fs : FileSystem} {conf : Str} (fuel : Nat) (hne : funcs ≠ [])
    (hplain : ∀ name ∈ funcs, Plain name)
    (hopen : fs.openFile conf = some (genSymbols funcs))
    (hmissing : ∀ rest, "include".toList ++ rest ∈ funcs → rest ≠ [] →
      fs.pathExists (target conf rest) = false) :
    if ∃ name ∈ funcs, "include".toList <+: name then
      ∃ e : ParseResult, e.success = false ∧ load fs (fuel + 1) conf fresh = .ok (e, fresh)
    else ∃ config, load fs (fuel + 1) conf fresh = .ok (.ok, config) ∧
      Tracks config (.ofEdits (symbolEdits funcs)) := by
  have hlines : getlines (genSymbols funcs) = "[Function]".toList :: funcs := by
    rw [genSymbols_eq hne, getlines_flatMap]
    refine List.forall_mem_cons.mpr ⟨by decide, fun name hname hc => ?_⟩
    exact (hplain name hname).notMem_special hc (by decide)
  have hheader : directive "[Function]".toList = .ok (.header "Function".toList) := by decide
  have hnoInclude (f : Str) : Directive.header "Function".toList ≠ .includes f := by
    intro h
    cases h
  have hstart : load fs (fuel + 1) conf fresh =
      parseLines fs (load fs fuel) conf 1 funcs
        ((fresh.pushBaseDir (baseDirOf conf)).enterSection "Function".toList) := by
    rw [load, hopen]
    dsimp only
    rw [hlines, parseLines_of_ok (parseLine_entry hheader hnoInclude)]
    rfl
  have hnames := @parseLines_names fs (load fs fuel) conf funcs hplain hmissing 1
    ((fresh.pushBaseDir (baseDirOf conf)).enterSection "Function".toList) rfl
  rw [← hstart] at hnames
  by_cases hinclude : ∃ name ∈ funcs, "include".toList <+: name
  · rw [if_pos hinclude] at hnames ⊢
    exact hnames
  · rw [if_neg hinclude] at hnames ⊢
    refine ⟨_, hnames, Tracks.of_bare ?_⟩
    have hbare : (((fresh.pushBaseDir (baseDirOf conf)).enterSection "Function".toList).replay
        (funcs.map (Edit.assign · []))).bare = fresh.replay (symbolEdits funcs) := by
      rw [bare_replay]
      rfl
    have htracks := tracks_replay (symbolEdits funcs)
    rw [← hbare] at htracks
    exact htracks

/-- The functions of a library and its symbol list. Unless a name begins with `include`, `stat`
accounts for what the library exports and for nothing else: a function that the headers declare
is listed, any other is missing. The script reads the list as it has written it either way. -/
theorem stat_exported {fs : FileSystem} {conf : Str} (fuel : Nat)
    (hopen : fs.openFile conf = some (genSymbols (dumpFunctions out)))
    (hfuncs : ∃ name, Exported out name)
    (hreserved : ∀ name, Exported out name → ∀ c ∈ name, c ∉ reserved)
    (hmissing : ∀ rest, Exported out ("include".toList ++ rest) → rest ≠ [] →
      fs.pathExists (target conf rest) = false) :
    functionsFromSymbols (genSymbols (dumpFunctions out)) = dumpFunctions out ∧
      ∃ result config, load fs (fuel + 1) conf fresh = .ok (result, config) ∧
        (result.success = true ↔ ¬ ∃ name, Exported out name ∧ "include".toList <+: name) ∧
        (result.success = true → ∀ getAsString tu,
          let functionMap := (TLC.matchAST getAsString tu).1.functionMap
          let stat := TLC.statFunctions getAsString tu (thunkConfig config)
          (∀ name, name ∈ (stat .guestToHost).1 ↔
            Exported out name.toList ∧ (functionMap name).isSome) ∧
          (∀ name, name ∈ (stat .guestToHost).2 ↔
            Exported out name.toList ∧ (functionMap name).isNone) ∧
          stat .hostToGuest = (∅, ∅)) := by
  have hne : dumpFunctions out ≠ [] := by
    obtain ⟨name, hname⟩ := hfuncs
    exact List.ne_nil_of_mem (mem_dumpFunctions.mpr hname)
  have hplain : ∀ name ∈ dumpFunctions out, Plain name := by
    intro name hmem
    have hname := mem_dumpFunctions.mp hmem
    obtain ⟨line, -, hlists⟩ := id hname
    exact ⟨hlists.1, fun c hc => ⟨hname.isSpace_eq_false hc, hreserved name hname c hc⟩⟩
  refine ⟨functionsFromSymbols_genSymbols hne hplain, ?_⟩
  have hload := load_genSymbols fuel hne hplain hopen fun rest hmem =>
    hmissing rest (mem_dumpFunctions.mp hmem)
  have hiff : (∃ name ∈ dumpFunctions out, "include".toList <+: name) ↔
      ∃ name, Exported out name ∧ "include".toList <+: name :=
    exists_congr fun name => and_congr_left' mem_dumpFunctions
  by_cases hinclude : ∃ name ∈ dumpFunctions out, "include".toList <+: name
  · rw [if_pos hinclude] at hload
    obtain ⟨e, he, hload⟩ := hload
    refine ⟨e, fresh, hload, iff_of_false (ne_true_of_eq_false he) ?_, ?_⟩
    · exact not_not_intro (hiff.mp hinclude)
    exact fun hsuccess => absurd hsuccess (ne_true_of_eq_false he)
  · rw [if_neg hinclude] at hload
    obtain ⟨config, hload, htracks⟩ := hload
    refine ⟨.ok, config, hload, iff_of_true rfl (mt hiff.mpr hinclude), fun _ getAsString tu => ?_⟩
    have hkeys := sectionKeys_of_tracks (nodup_dumpFunctions out) htracks
    have hmem (name : String) : name ∈ sectionKeys config "Function" ↔
        Exported out name.toList := by
      rw [hkeys, if_pos rfl, List.mem_map, ← mem_dumpFunctions]
      constructor
      · rintro ⟨f, hf, rfl⟩
        rwa [String.toList_ofList]
      · exact fun hf => ⟨name.toList, hf, String.ofList_toList⟩
    have hguest : sectionKeys config "Guest Function" = [] := by
      rw [hkeys, if_neg (by decide)]
    refine ⟨fun name => ?_, fun name => ?_, ?_⟩
    · simp [TLC.statFunctions, thunkConfig, TLC.sectionName, hmem]
    · simp [TLC.statFunctions, thunkConfig, TLC.sectionName, hmem]
    · simp [TLC.statFunctions, thunkConfig, TLC.sectionName, hguest]

/-- A function with two versions, beside the name of one of them. -/
theorem stat_exported_versions :
    let out := "2b30 T foo@@V1\n2b30 T foo@V0\n0 A V1\n".toList
    let fs : FileSystem := ⟨fun _ => false, fun _ => some (genSymbols (dumpFunctions out))⟩
    functionsFromSymbols (genSymbols (dumpFunctions out)) = ["foo".toList] ∧
      ∃ result config, load fs 1 "Symbols.conf".toList fresh = .ok (result, config) ∧
        result.success = true ∧ ∀ getAsString tu name,
          name ∈ (TLC.statFunctions getAsString tu (thunkConfig config) .guestToHost).2 ↔
            name = "foo" ∧ ((TLC.matchAST getAsString tu).1.functionMap name).isNone := by
  intro out fs
  have hfuncs : dumpFunctions out = ["foo".toList] := by decide
  have hexported (name : Str) : Exported out name ↔ name = "foo".toList := by
    rw [← mem_dumpFunctions, hfuncs, List.mem_singleton]
  have hinclude (rest : Str) : "include".toList ++ rest ≠ "foo".toList := by simp
  have hplain : List.Disjoint "foo".toList reserved := by simp [reserved]
  obtain ⟨hread, result, config, hload, hsuccess, hstat⟩ :=
    @stat_exported out fs "Symbols.conf".toList 0 rfl ⟨_, (hexported _).mpr rfl⟩
      (fun name hname c hc => by
        rw [(hexported name).mp hname] at hc
        exact (List.disjoint_left.mp hplain) hc)
      (fun rest hrest => absurd ((hexported _).mp hrest) (hinclude rest))
  have hsuccess : result.success = true := by
    refine hsuccess.mpr ?_
    rintro ⟨name, hname, rest, rfl⟩
    exact hinclude rest ((hexported _).mp hname)
  refine ⟨hread.trans hfuncs, result, config, hload, hsuccess, fun getAsString tu name => ?_⟩
  rw [(hstat hsuccess getAsString tu).2.1, hexported]
  exact and_congr_left' String.toList_inj

end Lorelei.MakeThunk
