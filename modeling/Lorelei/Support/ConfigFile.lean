import Lorelei.Support.Path

/-!
# Configuration files

`ConfigFile`: INI text read line by line into sections, with `include` directives that
load other files relative to the file they stand in.

Loading recurses through `include`, so `load` is given fuel.  Removing the last element
of an empty vector is undefined in C++; here the run is stuck.
-/

namespace Lorelei.Support

/-- What loading asks of the file system. -/
structure FileSystem where
  /-- `fs::exists`. -/
  pathExists : Str → Bool
  /-- The text of a file that `std::ifstream` can open. -/
  openFile : Str → Option Str

/-- The lines `std::getline` extracts, with the part of a line read so far. -/
def getlinesFrom (line : Str) : Str → List Str
  | [] => if line = [] then [] else [line]
  | '\n' :: s => line :: getlinesFrom [] s
  | c :: s => getlinesFrom (line ++ [c]) s

def getlines (text : Str) : List Str := getlinesFrom [] text

namespace ConfigFile

/-! ## Scanners -/

def isWhitespace (c : Char) : Bool := c = ' ' || c = '\t' || c = '\r' || c = '\n'

def isQuote (c : Char) : Bool := c = '"' || c = '\x27'

def trim (s : Str) : Str := (s.dropWhile isWhitespace).rdropWhile isWhitespace

def unquoteString (s : Str) : Str :=
  if 2 ≤ s.length ∧ (s.head? = some '"' ∧ s.getLast? = some '"' ∨
      s.head? = some '\x27' ∧ s.getLast? = some '\x27') then s.tail.dropLast
  else s

/-- The character that an escape sequence stands for. -/
def escapeOf : Char → Option Char
  | 'n' => some '\n'
  | 't' => some '\t'
  | 'r' => some '\r'
  | '\\' => some '\\'
  | '"' => some '"'
  | '\x27' => some '\x27'
  | _ => none

/-- The loop of `parseQuotedString`, between the quotes. -/
def unescape : Str → Option Str
  | [] => some []
  | ['\\'] => none
  | '\\' :: e :: s => (escapeOf e).bind fun c => (unescape s).map (c :: ·)
  | c :: s => (unescape s).map (c :: ·)

def parseQuotedString : Str → Option Str
  | [] => some []
  | quoteChar :: s =>
      if isQuote quoteChar then
        if s.getLast? = some quoteChar then unescape s.dropLast else none
      else some (quoteChar :: s)

/-- The loop of `removeInlineComment`: the quote that is open, and whether the next
character is escaped. -/
def uncomment : (quote : Option Char) → (escaped : Bool) → Str → Option Str
  | none, false, [] => some []
  | _, _, [] => none
  | quote, true, c :: s => (uncomment quote false s).map (c :: ·)
  | quote, false, '\\' :: s => (uncomment quote true s).map ('\\' :: ·)
  | none, false, c :: s =>
      if isQuote c then (uncomment (some c) false s).map (c :: ·)
      else if c = '#' then some []
      else (uncomment none false s).map (c :: ·)
  | some q, false, c :: s =>
      (uncomment (if isQuote c ∧ c = q then none else some q) false s).map (c :: ·)

def removeInlineComment (line : Str) : Option Str := uncomment none false line

/-- The key and the value of a line that is neither a directive nor a section. -/
def splitKeyValue (line : Str) : Str × Str :=
  if '=' ∈ line then
    (trim (line.takeWhile (· ≠ '=')), trim (trim (line.dropWhile (· ≠ '=')).tail))
  else (trim line, [])

end ConfigFile

/-! ## The object -/

/-- `ConfigFile::Section`. -/
structure Section where
  name : Str
  keyValues : List (Str × Str)
  keyIndex : List (Str × Nat)
deriving DecidableEq, Repr

/-- `ConfigFile::Section::addKeyValue`. -/
def Section.addKeyValue (section_ : Section) (key value : Str) : Section :=
  match section_.keyIndex.lookup key with
  | none =>
      { section_ with
        keyValues := section_.keyValues ++ [(key, value)]
        keyIndex := (key, section_.keyValues.length) :: section_.keyIndex }
  | some i =>
      { section_ with
        keyValues := section_.keyValues.modify i fun kv => (kv.1, value) }

/-- `ConfigFile`.  The base directories have the last one first. -/
structure ConfigFile where
  sections : List Section
  sectionIndex : List (Str × Nat)
  currentSectionIndex : Nat
  baseDirStack : List Str
deriving DecidableEq, Repr

/-- `ConfigFile::ParseResult`. -/
structure ParseResult where
  success : Bool
  errorMessage : Str
  file : Str
  line : Nat
deriving DecidableEq, Repr

def ParseResult.ok : ParseResult := ⟨true, [], [], 0⟩

def ParseResult.error (msg file : Str) (line : Nat) : ParseResult := ⟨false, msg, file, line⟩

namespace ConfigFile

def globalSectionName : Str := "$global$".toList

/-- A `ConfigFile` as it is constructed, and what `clear` leaves. -/
def fresh : ConfigFile where
  sections := [⟨globalSectionName, [], []⟩]
  sectionIndex := [(globalSectionName, 0)]
  currentSectionIndex := 0
  baseDirStack := []

def clear (_ : ConfigFile) : ConfigFile := fresh

/-- `getOrCreateSection`, with the index it returns made the current one. -/
def enterSection (c : ConfigFile) (name : Str) : ConfigFile :=
  match c.sectionIndex.lookup name with
  | some i => { c with currentSectionIndex := i }
  | none =>
      { c with
        sections := c.sections ++ [⟨name, [], []⟩]
        sectionIndex := (name, c.sections.length) :: c.sectionIndex
        currentSectionIndex := c.sections.length }

/-- `addKeyValue` on the current section. -/
def record (c : ConfigFile) (key value : Str) : ConfigFile :=
  { c with
    sections := c.sections.modify c.currentSectionIndex (Section.addKeyValue · key value) }

def pushBaseDir (c : ConfigFile) (dir : Str) : ConfigFile :=
  { c with baseDirStack := dir :: c.baseDirStack }

/-- Why a run has no result. -/
inductive Stuck where
  | outOfFuel
  | popEmpty
deriving DecidableEq, Repr

abbrev Run (α : Type) := Except Stuck α

def popBaseDir (c : ConfigFile) : Run ConfigFile :=
  match c.baseDirStack with
  | [] => .error .popEmpty
  | _ :: dirs => .ok { c with baseDirStack := dirs }

/-! ## Parsing -/

/-- `ConfigFile::parseLine`, given the `load` that an include directive calls. -/
def parseLine (fs : FileSystem) (load : Str → ConfigFile → Run (ParseResult × ConfigFile))
    (originalLine file : Str) (lineNum : Nat) (c : ConfigFile) :
    Run (ParseResult × ConfigFile) :=
  let fail (msg : Str) : Run (ParseResult × ConfigFile) := .ok (.error msg file lineNum, c)
  match removeInlineComment originalLine with
  | none => fail "Unclosed quotes or invalid escape sequence".toList
  | some uncommented =>
      let line := trim uncommented
      if line = [] then .ok (.ok, c)
      else if "include".toList <+: line then
        let includeFile := trim (line.drop 7)
        if includeFile = [] then fail "include directive requires a filename".toList
        else
          let includePath := joinPath (c.baseDirStack.headD ['.']) (unquoteString includeFile)
          if fs.pathExists includePath then load includePath c
          else fail ("Included file not found: ".toList ++ includePath)
      else if line.head? = some '[' ∧ line.getLast? = some ']' then
        let sectionName := trim line.tail.dropLast
        if sectionName = [] then fail "Empty section name".toList
        else
          match parseQuotedString sectionName with
          | none => fail "Invalid section name format".toList
          | some name => .ok (.ok, c.enterSection name)
      else
        let (key, value) := splitKeyValue line
        if key = [] then fail "Empty key".toList
        else
          match parseQuotedString (unquoteString key), parseQuotedString (unquoteString value) with
          | none, _ => fail "Invalid key format".toList
          | some _, none => fail "Invalid value format".toList
          | some key, some value => .ok (.ok, c.record key value)

/-! ## What a line says -/

/-- What a line asks for, whatever the state it is parsed in. -/
inductive Directive where
  | blank
  | includes (file : Str)
  | header (name : Str)
  | keyValue (key value : Str)
deriving DecidableEq, Repr

/-- The text of an include directive, after the keyword. -/
def includeDirective (text : Str) : Except Str Directive :=
  if trim text = [] then .error "include directive requires a filename".toList
  else .ok (.includes (unquoteString (trim text)))

def headerDirective (text : Str) : Except Str Directive :=
  if trim text = [] then .error "Empty section name".toList
  else
    match parseQuotedString (trim text) with
    | none => .error "Invalid section name format".toList
    | some name => .ok (.header name)

def keyValueDirective (key value : Str) : Except Str Directive :=
  if key = [] then .error "Empty key".toList
  else
    match parseQuotedString (unquoteString key), parseQuotedString (unquoteString value) with
    | none, _ => .error "Invalid key format".toList
    | some _, none => .error "Invalid value format".toList
    | some key, some value => .ok (.keyValue key value)

def directive (originalLine : Str) : Except Str Directive :=
  match removeInlineComment originalLine with
  | none => .error "Unclosed quotes or invalid escape sequence".toList
  | some uncommented =>
      let line := trim uncommented
      if line = [] then .ok .blank
      else if "include".toList <+: line then includeDirective (line.drop 7)
      else if line.head? = some '[' ∧ line.getLast? = some ']' then
        headerDirective line.tail.dropLast
      else keyValueDirective (splitKeyValue line).1 (splitKeyValue line).2

/-- Carrying out a line. -/
def perform (fs : FileSystem) (load : Str → ConfigFile → Run (ParseResult × ConfigFile))
    (file : Str) (lineNum : Nat) (c : ConfigFile) :
    Except Str Directive → Run (ParseResult × ConfigFile)
  | .error msg => .ok (.error msg file lineNum, c)
  | .ok .blank => .ok (.ok, c)
  | .ok (.includes f) =>
      let path := joinPath (c.baseDirStack.headD ['.']) f
      if fs.pathExists path then load path c
      else .ok (.error ("Included file not found: ".toList ++ path) file lineNum, c)
  | .ok (.header name) => .ok (.ok, c.enterSection name)
  | .ok (.keyValue key value) => .ok (.ok, c.record key value)

theorem parseLine_eq (fs : FileSystem) (load : Str → ConfigFile → Run (ParseResult × ConfigFile))
    (originalLine file : Str) (lineNum : Nat) (c : ConfigFile) :
    parseLine fs load originalLine file lineNum c =
      perform fs load file lineNum c (directive originalLine) := by
  unfold parseLine directive
  cases removeInlineComment originalLine with
  | none => rfl
  | some uncommented =>
      simp only
      generalize trim uncommented = line
      by_cases hblank : line = []
      · simp only [hblank, if_pos, perform]
      rw [if_neg hblank, if_neg hblank]
      by_cases hinclude : "include".toList <+: line
      · rw [if_pos hinclude, if_pos hinclude, includeDirective]
        split <;> rfl
      rw [if_neg hinclude, if_neg hinclude]
      by_cases hheader : line.head? = some '[' ∧ line.getLast? = some ']'
      · rw [if_pos hheader, if_pos hheader, headerDirective]
        split
        · rfl
        · cases parseQuotedString (trim line.tail.dropLast) <;> rfl
      rw [if_neg hheader, if_neg hheader, keyValueDirective]
      split
      · rfl
      · cases parseQuotedString (unquoteString (splitKeyValue line).1) <;>
          cases parseQuotedString (unquoteString (splitKeyValue line).2) <;> rfl

/-! ## Loading -/

/-- The loop of `load` over the lines that are left; `lineNum` lines have been read. -/
def parseLines (fs : FileSystem) (load : Str → ConfigFile → Run (ParseResult × ConfigFile))
    (file : Str) : (lineNum : Nat) → List Str → ConfigFile → Run (ParseResult × ConfigFile)
  | _, [], c => do
      let c ← c.popBaseDir
      return (.ok, c)
  | lineNum, line :: lines, c => do
      let (result, c) ← parseLine fs load line file (lineNum + 1) c
      if result.success then parseLines fs load file (lineNum + 1) lines c
      else
        let c ← c.popBaseDir
        return (result, c.clear)

/-- The directory that the includes of a file are relative to. -/
def baseDirOf (file : Str) : Str := if parentPath file = [] then ['.'] else parentPath file

/-- `ConfigFile::load`. -/
def load (fs : FileSystem) : (fuel : Nat) → Str → ConfigFile → Run (ParseResult × ConfigFile)
  | 0, _, _ => .error .outOfFuel
  | fuel + 1, file, c =>
      match fs.openFile file with
      | none => .ok (.error ("Cannot open file: ".toList ++ file) file 0, c)
      | some text =>
          parseLines fs (load fs fuel) file 0 (getlines text) (c.pushBaseDir (baseDirOf file))

end ConfigFile

end Lorelei.Support
