import Lorelei.Support.Path
import Lorelei.TLC.BuilderChoice
import Lorelei.TLC.CodeTemplates
import Mathlib.Algebra.Group.Int.Defs
import Mathlib.Algebra.Group.Nat.Defs

/-!
# The generated document

`generateOutput` writes the sections of a document one after the other.  Two of them go
over the procs with `emitProcTexts`: before the main source file it declares a
specialization for each phase that the manifest does not supply, and after it it defines
them.  Each proc is announced by a line with its name in the middle, padded to a width
that is computed in machine integers.
-/

namespace Lorelei.TLC

open Support

/-! ## The legend -/

/-- `kLegendWidth`. -/
abbrev legendWidth : Int := 75

/-- `(kLegendWidth - name.size()) / 2` as an `int`: the difference and the half of it are
unsigned and of 64 bits, and the low half of the word is kept, with its sign. -/
def eqCount (size : Nat) : Int :=
  let low := ((legendWidth - size) % 2 ^ 64 / 2) % 2 ^ 32
  if low < 2 ^ 31 then low else low - 2 ^ 32

/-- `std::string(count, '=')`.  A count below zero becomes one that is more than a string
can hold, and the constructor throws. -/
def equalsSigns (count : Int) : Option Str :=
  if 0 ≤ count then some (List.replicate count.toNat '=') else none

/-- `none`: the padding throws. -/
def legendLine (name : Str) : Option Str :=
  (equalsSigns (eqCount name.length)).map fun pad =>
    "// ".toList ++ pad ++ " ".toList ++ name ++ " ".toList ++ pad

/-! ## The texts of a proc -/

section Texts

variable (getAsString : QualType → Str)

def getTypeStringWithName (type : QualType) (name : Str) : Str :=
  let text := getTypeStringDecompound getAsString type
  (if "*".toList <:+ text then text else text ++ " ".toList) ++ name

/-- `FunctionInfo::declText`. -/
def declText (info : FunctionInfo) (name : Str) : Str :=
  let args := info.arguments.map fun arg => getTypeStringWithName getAsString arg.1 arg.2
  getTypeStringDecompound getAsString info.returnType ++ " ".toList ++ name ++ "(".toList ++
    ", ".toList.intercalate (if info.isVariadic then args ++ ["...".toList] else args) ++
      ")".toList

/-- `ProcSnippet::ProcSource`, with the text of each of its buffers.  No signature is a
null return type. -/
structure PhaseSource where
  functionInfo : Option FunctionInfo := none
  head : Str := []
  prolog : Str := []
  forward : Str := []
  center : Str := []
  backward : Str := []
  epilog : Str := []
  tail : Str := []

def directionName : ProcDirection → Str
  | .guestToHost => "GuestToHost".toList
  | .hostToGuest => "HostToGuest".toList

def phaseName : ProcPhase → Str
  | .entry => "Entry".toList
  | .adapt => "Adapt".toList
  | .caller | .exec => "Caller".toList

def procTemplateName (proc : ProcSnippet) : Str :=
  if proc.isFunction then "ProcFn".toList else "ProcCb".toList

def procName (proc : ProcSnippet) : Str :=
  if proc.isFunction then "::".toList ++ proc.name else proc.name

/-- `ProcSnippet::text`. -/
def text (proc : ProcSnippet) (src : PhaseSource) (phase : ProcPhase) (hasDecl : Bool) : Str :=
  match src.functionInfo with
  | none => []
  | some info =>
    if hasDecl then
      "template <>\nstruct ".toList ++ procTemplateName proc ++ "<".toList ++ procName proc ++
        ", ".toList ++ directionName proc.direction ++ ", ".toList ++ phaseName phase ++
        "> \x7b\n    _PROC ".toList ++ declText getAsString info "invoke".toList ++
        ";\n\x7d;\n".toList
    else
      src.head ++
        declText getAsString info (procTemplateName proc ++ "<".toList ++ procName proc ++
          ", ".toList ++ directionName proc.direction ++ ", ".toList ++ phaseName phase ++
          ">::\ninvoke".toList) ++
        " \x7b\n    // prolog\n".toList ++ src.prolog ++ "    // forward\n".toList ++ src.forward ++
        "    // center\n".toList ++ src.center ++ "    // backward\n".toList ++ src.backward ++
        "    // epilog\n".toList ++ src.epilog ++ "\x7d\n".toList ++ src.tail

end Texts

/-! ## The document -/

abbrev Slot := ProcKind × ProcDirection × Str

/-- What `generateOutput` reads of a `DocumentContext`. -/
structure DocumentContext where
  mode : Mode
  preIncludeFileName : Str
  mainFileName : Str
  head : Str
  tail : Str
  /-- `m_procs`. -/
  tables : ProcTables
  /-- `hasDefinition`: the manifest supplies the phase. -/
  hasDefinition : Slot → ProcPhase → Bool
  source : Slot → ProcPhase → PhaseSource
  /-- The signature of a function's declaration. -/
  functionInfo : Slot → FunctionInfo
  requestedFunctions : ProcDirection → List Str
  functionDecls : ProcDirection → List Str

/-- What one statement of `emitProcTexts` writes. -/
inductive Piece where
  | legend (line : Str)
  | proc (slot : Slot) (phase : ProcPhase) (text : Str)
deriving DecidableEq, Repr

namespace Piece

def written : Piece → Str
  | .legend line => line ++ "\n".toList
  | .proc _ _ text => text ++ "\n".toList

/-- The specialization that is declared or defined, if the text is not empty. -/
def specialization : Piece → Option (Slot × ProcPhase)
  | .legend _ => none
  | .proc slot phase text => if text = [] then none else some (slot, phase)

end Piece

/-- The specializations in a section, in order. -/
def specializations (pieces : List Piece) : List (Slot × ProcPhase) :=
  pieces.filterMap Piece.specialization

namespace DocumentContext

variable (getAsString : QualType → Str) (doc : DocumentContext)

def emitPhase (e : Entry) (asDeclaration : Bool) (phase : ProcPhase) : List Piece :=
  if doc.hasDefinition e.slot phase then []
  else [.proc e.slot phase
    (text getAsString e.proc (doc.source e.slot phase) phase asDeclaration)]

/-- The body of the innermost loop of `emitProcTexts`. -/
def emitProc (asDeclaration : Bool) (e : Entry) : Option (List Piece) := do
  let line ← legendLine e.proc.name
  return .legend line :: (doc.emitPhase getAsString e asDeclaration .caller ++
    doc.emitPhase getAsString e asDeclaration .adapt ++
    doc.emitPhase getAsString e asDeclaration .entry)

def emitProcTexts (asDeclaration : Bool) : Option (List Piece) :=
  (doc.tables.entries.mapM (doc.emitProc getAsString asDeclaration)).map List.flatten

def emitManifestPrologue : Str :=
  "#define LORE_THUNK_BUILD\n\n#include <lorelei/ThunkInterface/Detail/Callback.h>\n".toList ++
    "#include <lorelei/ThunkInterface/Detail/Variadic.h>\n\n#include \"".toList ++
    filename doc.preIncludeFileName ++ "\"\n\n".toList

/-- The direction whose functions are exported, with the prefix of their symbols. -/
def exported : ProcDirection × Str :=
  match doc.mode with
  | .host => (.hostToGuest, "GTL_".toList)
  | .guest => (.guestToHost, [])

/-- The declaration of a function's exported symbol, as an alias of the function's entry. -/
def exportedAlias (getInvokeAlias : ProcSnippet → Except Str Str) (p : Str × ProcSnippet) :
    Except Str Str :=
  (getInvokeAlias p.2).map fun symbol =>
    "LORE_DECL_EXPORT ".toList ++
      declText getAsString (doc.functionInfo (.function, doc.exported.1, p.1))
        (doc.exported.2 ++ p.2.name) ++
      "\n    __attribute__((alias(\"".toList ++ symbol ++ "\")));\n".toList

def emitExportedAliases (getInvokeAlias : ProcSnippet → Except Str Str) : Except Str Str :=
  ((doc.tables.procs .function doc.exported.1).mapM
    (doc.exportedAlias getAsString getInvokeAlias)).map fun texts =>
      "extern \"C\" \x7b\n#pragma GCC diagnostic push\n".toList ++
        "#pragma GCC diagnostic ignored \"-Wattribute-alias\"\n".toList ++ texts.flatten ++
        "#pragma GCC diagnostic pop\n\x7d\n\n".toList

def emitForeachMacros : Str :=
  let rows (kind : ProcKind) (dir : ProcDirection) (row : ProcSnippet → Str) : Str :=
    (doc.tables.procs kind dir).flatMap fun p => row p.2
  let macroRow (proc : ProcSnippet) : Str := " \\\n    F(".toList ++ proc.name ++ ")".toList
  "#define LORE_THUNK_FUNCTION_G2H_FOREACH(F)".toList ++ rows .function .guestToHost macroRow ++
    "\n\n#define LORE_THUNK_FUNCTION_H2G_FOREACH(F)".toList ++
    rows .function .hostToGuest macroRow ++ "\n\nnamespace lore::thunk \x7b\n\n".toList ++
    rows .callback .guestToHost (fun proc => "using ".toList ++ proc.name ++ " = ".toList ++
      getTypeString getAsString proc.functionPointerType ++ ";\n".toList) ++
    "\n\x7d\n\n#define LORE_THUNK_CALLBACK_FOREACH(F)".toList ++
    rows .callback .guestToHost (fun proc => " \\\n    F(".toList ++ proc.name ++ ", \"".toList ++
      getTypeString getAsString proc.functionPointerType ++ "\")".toList) ++ "\n\n".toList

def emitMissingComments : Str :=
  let missing (dir : ProcDirection) : Str :=
    ((doc.requestedFunctions dir).filter (· ∉ doc.functionDecls dir)).flatMap fun name =>
      "// ".toList ++ name ++ "\n".toList
  "//\n// Missing Function Declarations\n//\n".toList ++ missing .guestToHost ++
    "\n//\n// Missing Guest Function Declarations\n//\n".toList ++ missing .hostToGuest ++
    "\n//\n// Missing Variable Declarations\n//\n\n".toList

/-- How `generateOutput` ends. -/
inductive Generated where
  | output (text : Str)
  /-- An error is reported, and the rest of the document is not written. -/
  | reported (message : Str)
  /-- `std::length_error` leaves the function. -/
  | threw
deriving DecidableEq, Repr

def generateOutput (getInvokeAlias : ProcSnippet → Except Str Str) : Generated :=
  match doc.emitExportedAliases getAsString getInvokeAlias with
  | .error message => .reported message
  | .ok aliases =>
    match doc.emitProcTexts getAsString true, doc.emitProcTexts getAsString false with
    | some declarations, some definitions =>
      .output (doc.emitManifestPrologue ++ aliases ++ doc.head ++ "\n".toList ++
        doc.emitForeachMacros getAsString ++ "namespace lore::thunk \x7b\n\n".toList ++
        declarations.flatMap Piece.written ++ "\x7d\n\n#include \"".toList ++
        filename doc.mainFileName ++ "\"\n\nnamespace lore::thunk \x7b\n\n".toList ++
        definitions.flatMap Piece.written ++ "\x7d\n\n".toList ++ doc.tail ++ "\n".toList ++
        doc.emitMissingComments ++
        "#include <lorelei/ThunkInterface/Detail/ProcImpl.cpp.inc>\n\n".toList)
    | _, _ => .threw

/-! ## What the document is for -/

/-- The manifest leaves the phase of the proc to the tool. -/
def Missing (s : Slot × ProcPhase) : Prop :=
  s.1 ∈ doc.tables.entries.map Entry.slot ∧ s.2 ≠ .exec ∧ doc.hasDefinition s.1 s.2 = false

/-- The document is written to its end; it declares what it defines, and that is each
missing specialization once. -/
structure Generates (getInvokeAlias : ProcSnippet → Except Str Str) : Prop where
  completes : ∃ text, doc.generateOutput getAsString getInvokeAlias = .output text
  specializations : ∃ declarations definitions,
    doc.emitProcTexts getAsString true = some declarations ∧
    doc.emitProcTexts getAsString false = some definitions ∧
    specializations declarations = specializations definitions ∧
    (specializations declarations).Nodup ∧
    ∀ s, s ∈ specializations declarations ↔ doc.Missing s

/-! ## The sections -/

/-- The specializations that are written for a proc. -/
def writtenPhases (e : Entry) : List (Slot × ProcPhase) :=
  ([ProcPhase.caller, .adapt, .entry].filter fun phase => !doc.hasDefinition e.slot phase &&
    (doc.source e.slot phase).functionInfo.isSome).map fun phase => (e.slot, phase)

end DocumentContext

section

variable {getAsString : QualType → Str}

theorem text_eq_nil_iff {proc : ProcSnippet} {src : PhaseSource} {phase : ProcPhase}
    {hasDecl : Bool} : text getAsString proc src phase hasDecl = [] ↔ src.functionInfo = none := by
  cases hinfo : src.functionInfo with
  | none => simp [text, hinfo]
  | some info => cases hasDecl <;> simp [text, hinfo]

theorem specializations_append (ps qs : List Piece) :
    specializations (ps ++ qs) = specializations ps ++ specializations qs :=
  List.filterMap_append

namespace DocumentContext

variable {doc : DocumentContext}

theorem specializations_emitPhase (e : Entry) (asDeclaration : Bool) (phase : ProcPhase) :
    specializations (doc.emitPhase getAsString e asDeclaration phase) =
      ([phase].filter fun phase => !doc.hasDefinition e.slot phase &&
        (doc.source e.slot phase).functionInfo.isSome).map fun phase => (e.slot, phase) := by
  cases hdef : doc.hasDefinition e.slot phase with
  | true => simp [emitPhase, specializations, hdef]
  | false =>
    cases hinfo : (doc.source e.slot phase).functionInfo with
    | none => simp [emitPhase, specializations, Piece.specialization, hdef, hinfo, text]
    | some info =>
      have htext : text getAsString e.proc (doc.source e.slot phase) phase asDeclaration ≠ [] := by
        simp [text_eq_nil_iff.not, hinfo]
      simp [emitPhase, specializations, Piece.specialization, hdef, hinfo, htext]

/-- Declarations and definitions are written for the same phases. -/
theorem specializations_emitProc {e : Entry} {asDeclaration : Bool} {ps : List Piece}
    (h : doc.emitProc getAsString asDeclaration e = some ps) :
    specializations ps = doc.writtenPhases e := by
  simp only [emitProc, Option.bind_eq_bind, Option.bind_eq_some_iff] at h
  obtain ⟨line, -, h⟩ := h
  cases h
  calc specializations (.legend line :: (doc.emitPhase getAsString e asDeclaration .caller ++
        doc.emitPhase getAsString e asDeclaration .adapt ++
        doc.emitPhase getAsString e asDeclaration .entry))
    _ = specializations (doc.emitPhase getAsString e asDeclaration .caller ++
        doc.emitPhase getAsString e asDeclaration .adapt ++
        doc.emitPhase getAsString e asDeclaration .entry) := rfl
    _ = doc.writtenPhases e := by
      simp only [specializations_append, specializations_emitPhase, ← List.map_append,
        ← List.filter_append]
      rfl

theorem isSome_emitProc_iff (asDeclaration : Bool) {e : Entry} :
    (doc.emitProc getAsString asDeclaration e).isSome ↔ (legendLine e.proc.name).isSome := by
  cases hline : legendLine e.proc.name with
  | none => simp [emitProc, hline]
  | some line => simp [emitProc, hline]

theorem mapM_emitProc (asDeclaration : Bool) {es : List Entry}
    (h : ∀ e ∈ es, (legendLine e.proc.name).isSome) :
    ∃ pss, es.mapM (doc.emitProc getAsString asDeclaration) = some pss ∧
      specializations pss.flatten = es.flatMap doc.writtenPhases := by
  induction es with
  | nil => exact ⟨[], rfl, rfl⟩
  | cons e es ih =>
    obtain ⟨he, hes⟩ := List.forall_mem_cons.mp h
    have hsome : (doc.emitProc getAsString asDeclaration e).isSome :=
      (isSome_emitProc_iff asDeclaration).mpr he
    obtain ⟨ps, hps⟩ := Option.isSome_iff_exists.mp hsome
    obtain ⟨pss, hpss, hspec⟩ := ih hes
    refine ⟨ps :: pss, by simp [List.mapM_cons, hps, hpss], ?_⟩
    rw [List.flatten_cons, specializations_append, specializations_emitProc hps, hspec,
      List.flatMap_cons]

/-- A section is written if each name can be padded. -/
theorem emitProcTexts_of_isSome (asDeclaration : Bool)
    (h : ∀ e ∈ doc.tables.entries, (legendLine e.proc.name).isSome) :
    ∃ ps, doc.emitProcTexts getAsString asDeclaration = some ps ∧
      specializations ps = doc.tables.entries.flatMap doc.writtenPhases := by
  obtain ⟨pss, hpss, hspec⟩ := mapM_emitProc asDeclaration h
  exact ⟨pss.flatten, by rw [emitProcTexts, hpss, Option.map_some], hspec⟩

theorem isSome_of_mapM_emitProc {es : List Entry} {asDeclaration : Bool} {pss : List (List Piece)}
    (h : es.mapM (doc.emitProc getAsString asDeclaration) = some pss) :
    ∀ e ∈ es, (legendLine e.proc.name).isSome := by
  induction es generalizing pss with
  | nil => simp
  | cons e es ih =>
    simp only [List.mapM_cons, Option.bind_eq_bind, Option.bind_eq_some_iff] at h
    obtain ⟨ps, hps, qss, hqss, -⟩ := h
    have hhead := (isSome_emitProc_iff asDeclaration).mp (Option.isSome_of_eq_some hps)
    exact List.forall_mem_cons.mpr ⟨hhead, ih hqss⟩

theorem isSome_of_emitProcTexts {asDeclaration : Bool} {ps : List Piece}
    (h : doc.emitProcTexts getAsString asDeclaration = some ps) :
    ∀ e ∈ doc.tables.entries, (legendLine e.proc.name).isSome := by
  obtain ⟨pss, hpss, -⟩ := Option.map_eq_some_iff.mp h
  exact isSome_of_mapM_emitProc hpss

theorem mem_writtenPhases_iff {e : Entry} {s : Slot × ProcPhase} :
    s ∈ doc.writtenPhases e ↔ s.1 = e.slot ∧ s.2 ≠ .exec ∧ doc.hasDefinition s.1 s.2 = false ∧
      (doc.source s.1 s.2).functionInfo.isSome := by
  obtain ⟨slot, phase⟩ := s
  simp only [writtenPhases, List.mem_map, List.mem_filter, Prod.mk.injEq, Bool.and_eq_true,
    Bool.not_eq_true']
  constructor
  · rintro ⟨phase', ⟨hphase, hdef, hbuilt⟩, rfl, rfl⟩
    refine ⟨rfl, ?_, hdef, hbuilt⟩
    rintro rfl
    simp at hphase
  · rintro ⟨rfl, hphase, hdef, hbuilt⟩
    refine ⟨phase, ⟨?_, hdef, hbuilt⟩, rfl, rfl⟩
    cases phase with
    | entry | adapt | caller => simp
    | exec => exact absurd rfl hphase

theorem mem_written_iff {s : Slot × ProcPhase} :
    s ∈ doc.tables.entries.flatMap doc.writtenPhases ↔
      doc.Missing s ∧ (doc.source s.1 s.2).functionInfo.isSome := by
  simp only [List.mem_flatMap, mem_writtenPhases_iff, Missing, List.mem_map]
  constructor
  · rintro ⟨e, he, heq, hphase, hdef, hbuilt⟩
    exact ⟨⟨⟨e, he, heq.symm⟩, hphase, hdef⟩, hbuilt⟩
  · rintro ⟨⟨⟨e, he, heq⟩, hphase, hdef⟩, hbuilt⟩
    exact ⟨e, he, heq.symm, hphase, hdef, hbuilt⟩

theorem nodup_writtenPhases (e : Entry) : (doc.writtenPhases e).Nodup := by
  refine List.Nodup.map (fun p q h => (Prod.mk.inj h).2) (List.Nodup.filter _ ?_)
  simp

theorem nodup_written : (doc.tables.entries.flatMap doc.writtenPhases).Nodup := by
  rw [List.nodup_flatMap]
  refine ⟨fun e _ => nodup_writtenPhases e, ?_⟩
  have hslots := List.pairwise_map.mp doc.tables.nodup_slots
  refine hslots.imp fun {e e'} hne => ?_
  intro s hs hs'
  exact hne ((mem_writtenPhases_iff.mp hs).1.symm.trans (mem_writtenPhases_iff.mp hs').1)

end DocumentContext

/-! ## The padding -/

/-- The padding of a name of this length is not below zero. The second and third cases are
lengths at which the count comes round again. -/
def LegendFits (size : Nat) : Prop :=
  size ≤ 75 ∨ (size - 74) / 2 % 2 ^ 32 = 0 ∨ 2 ^ 31 < (size - 74) / 2 % 2 ^ 32

theorem eqCount_nonneg_iff {size : Nat} : 0 ≤ eqCount size ↔ LegendFits size := by
  simp only [eqCount, legendWidth, LegendFits]
  split
  · omega
  · omega

theorem isSome_legendLine_iff {name : Str} :
    (legendLine name).isSome ↔ LegendFits name.length := by
  rw [← eqCount_nonneg_iff, legendLine, Option.isSome_map, equalsSigns]
  split
  · simp [*]
  · simp [*]

/-! ## The document -/

namespace DocumentContext

variable {doc : DocumentContext} {getInvokeAlias : ProcSnippet → Except Str Str}

theorem exists_mapM_ok_iff {α β : Type} {f : α → Except Str β} {l : List α} :
    (∃ l', l.mapM f = .ok l') ↔ ∀ a ∈ l, ∃ b, f a = .ok b := by
  induction l with
  | nil => simp [pure, Except.pure]
  | cons a l ih =>
    rw [List.forall_mem_cons, ← ih, List.mapM_cons]
    cases hf : f a with
    | error e => simp [bind, Except.bind]
    | ok b =>
      cases hl : l.mapM f with
      | error e => simp [bind, Except.bind]
      | ok l' => simp [bind, Except.bind, pure, Except.pure]

theorem exists_map_ok_iff {α β : Type} {f : α → β} {x : Except Str α} :
    (∃ b, x.map f = .ok b) ↔ ∃ a, x = .ok a := by
  cases x with
  | error e => simp [Except.map]
  | ok a => simp [Except.map]

theorem emitExportedAliases_ok_iff (getAsString : QualType → Str) :
    (∃ aliases, doc.emitExportedAliases getAsString getInvokeAlias = .ok aliases) ↔
      ∀ p ∈ doc.tables.procs .function doc.exported.1, ∃ symbol,
        getInvokeAlias p.2 = .ok symbol := by
  have hrows : (∃ texts, (doc.tables.procs .function doc.exported.1).mapM
      (doc.exportedAlias getAsString getInvokeAlias) = .ok texts) ↔ _ := exists_mapM_ok_iff
  simp only [exists_map_ok_iff, emitExportedAliases, exportedAlias] at hrows ⊢
  exact hrows

/-- What has to be so for the document: the exported functions have symbols, the names can
be padded, and what is missing has been built. -/
theorem generates_iff (getAsString : QualType → Str) (doc : DocumentContext)
    (getInvokeAlias : ProcSnippet → Except Str Str) :
    doc.Generates getAsString getInvokeAlias ↔
      (∀ p ∈ doc.tables.procs .function doc.exported.1, ∃ symbol,
        getInvokeAlias p.2 = .ok symbol) ∧
      (∀ e ∈ doc.tables.entries, LegendFits e.proc.name.length) ∧
      ∀ s, doc.Missing s → (doc.source s.1 s.2).functionInfo.isSome := by
  constructor
  · rintro ⟨⟨out, hout⟩, declarations, definitions, hdecls, hdefs, -, -, hmem⟩
    have hfits := isSome_of_emitProcTexts hdecls
    obtain ⟨ps, hps, hspec⟩ := emitProcTexts_of_isSome true hfits
    obtain rfl : declarations = ps := Option.some.inj (hdecls.symm.trans hps)
    refine ⟨?_, fun e he => isSome_legendLine_iff.mp (hfits e he), fun s hs => ?_⟩
    · refine (emitExportedAliases_ok_iff getAsString).mp ?_
      cases haliases : doc.emitExportedAliases getAsString getInvokeAlias with
      | error message => simp [generateOutput, haliases] at hout
      | ok aliases => exact ⟨aliases, rfl⟩
    · have hwritten := (hmem s).mpr hs
      rw [hspec] at hwritten
      exact (mem_written_iff.mp hwritten).2
  · rintro ⟨haliases, hfits, hbuilt⟩
    have hlegends : ∀ e ∈ doc.tables.entries, (legendLine e.proc.name).isSome :=
      fun e he => isSome_legendLine_iff.mpr (hfits e he)
    obtain ⟨declarations, hdecls, hspec⟩ := emitProcTexts_of_isSome true hlegends
    obtain ⟨definitions, hdefs, hspec'⟩ := emitProcTexts_of_isSome false hlegends
    obtain ⟨aliases, hok⟩ := (emitExportedAliases_ok_iff getAsString).mpr haliases
    refine ⟨⟨_, by simp only [generateOutput, hok, hdecls, hdefs]; rfl⟩, declarations,
      definitions, hdecls, hdefs, hspec.trans hspec'.symm, ?_, fun s => ?_⟩
    · rw [hspec]
      exact nodup_written
    · rw [hspec, mem_written_iff]
      exact ⟨fun h => h.1, fun h => ⟨h, hbuilt s h⟩⟩

/-- A document for one function, with a name that is longer than the legend. -/
def longName : DocumentContext where
  mode := .guest
  preIncludeFileName := []
  mainFileName := []
  head := []
  tail := []
  tables := {
    procs := fun kind dir =>
      if kind = .function ∧ dir = .guestToHost then
        [(List.replicate 76 'f', {
          kind := .function
          direction := .guestToHost
          name := List.replicate 76 'f'
          functionPointerType := .pointerTo .void })]
      else []
    sorted := fun kind dir => by split <;> simp }
  hasDefinition := fun _ _ => false
  source := fun _ _ => { functionInfo := some { returnType := .void, arguments := [] } }
  functionInfo := fun _ => { returnType := .void, arguments := [] }
  requestedFunctions := fun _ => []
  functionDecls := fun _ => []

/-- A name of 76 characters ends the tool. -/
theorem not_generates :
    ¬ ∀ (doc : DocumentContext), doc.Generates (fun _ => []) (fun proc => .ok proc.name) := by
  intro h
  obtain ⟨⟨out, hout⟩, -⟩ := h longName
  have hthrew : longName.generateOutput (fun _ => []) (fun proc => .ok proc.name) = .threw := by
    rfl
  rw [hthrew] at hout
  cases hout

end DocumentContext

end

end Lorelei.TLC
