import Mathlib.Order.WellFounded
import Lorelei.Support.ConfigFile

/-!
# Loading files that include files

What a file, and everything it includes, says first that is wrong does not depend on the
`ConfigFile` it is loaded into (`Reads`).  `load` finds exactly that error, but a file
that fails clears the whole object, the stack of base directories with it, and every
file that includes it then removes a directory from an empty stack.
-/

namespace Lorelei.Support.ConfigFile

variable {fs : FileSystem} {file : Str} {lineNum : Nat} {line : Str} {lines : List Str}

/-! ## What is read -/

/-- A file, or the lines of an opened file that are left. -/
inductive Job where
  | file (path : Str)
  | lines (file : Str) (lineNum : Nat) (lines : List Str)

/-- The path that an include directive of `file` leads to. -/
def target (file includeFile : Str) : Str := joinPath (baseDirOf file) includeFile

/-- Reading in order, through the included files, meets this error first, or none. -/
inductive Reads (fs : FileSystem) : Job → Option ParseResult → Prop
  | closed {file : Str} :
      fs.openFile file = none →
      Reads fs (.file file) (some (.error ("Cannot open file: ".toList ++ file) file 0))
  | opened {file text : Str} {e : Option ParseResult} :
      fs.openFile file = some text → Reads fs (.lines file 0 (getlines text)) e →
      Reads fs (.file file) e
  | nil {file : Str} {n : Nat} : Reads fs (.lines file n []) none
  | bad {file line msg : Str} {n : Nat} {lines : List Str} :
      directive line = .error msg →
      Reads fs (.lines file n (line :: lines)) (some (.error msg file (n + 1)))
  | entry {file line : Str} {n : Nat} {lines : List Str} {d : Directive}
      {e : Option ParseResult} :
      directive line = .ok d → (∀ f, d ≠ .includes f) → Reads fs (.lines file (n + 1) lines) e →
      Reads fs (.lines file n (line :: lines)) e
  | missing {file line f : Str} {n : Nat} {lines : List Str} :
      directive line = .ok (.includes f) → fs.pathExists (target file f) = false →
      Reads fs (.lines file n (line :: lines))
        (some (.error ("Included file not found: ".toList ++ target file f) file (n + 1)))
  | failed {file line f : Str} {n : Nat} {lines : List Str} {e : ParseResult} :
      directive line = .ok (.includes f) → fs.pathExists (target file f) = true →
      Reads fs (.file (target file f)) (some e) →
      Reads fs (.lines file n (line :: lines)) (some e)
  | included {file line f : Str} {n : Nat} {lines : List Str} {e : Option ParseResult} :
      directive line = .ok (.includes f) → fs.pathExists (target file f) = true →
      Reads fs (.file (target file f)) none → Reads fs (.lines file (n + 1) lines) e →
      Reads fs (.lines file n (line :: lines)) e

/-- `p` includes `q`. -/
def Included (fs : FileSystem) (q p : Str) : Prop :=
  ∃ text line f, fs.openFile p = some text ∧ line ∈ getlines text ∧
    directive line = .ok (.includes f) ∧ fs.pathExists q = true ∧ q = target p f

theorem Reads.det {job : Job} {e e' : Option ParseResult} (h : Reads fs job e)
    (h' : Reads fs job e') : e = e' := by
  induction h generalizing e' with
  | closed hopen =>
      cases h' with
      | closed => rfl
      | opened hopen' => rw [hopen] at hopen'; cases hopen'
  | opened hopen _ ih =>
      cases h' with
      | closed hopen' => rw [hopen] at hopen'; cases hopen'
      | opened hopen' h' =>
          rw [hopen] at hopen'
          cases hopen'
          exact ih h'
  | nil => cases h'; rfl
  | bad hd => cases h' <;> simp_all
  | entry hd hni _ ih =>
      cases h' with
      | bad hd' => simp_all
      | entry _ _ h' => exact ih h'
      | missing hd' => exact absurd (Except.ok.inj (hd ▸ hd')) (hni _)
      | failed hd' => exact absurd (Except.ok.inj (hd ▸ hd')) (hni _)
      | included hd' => exact absurd (Except.ok.inj (hd ▸ hd')) (hni _)
  | missing hd hp => cases h' <;> simp_all
  | failed hd hp hr ih =>
      cases h' with
      | bad hd' => simp_all
      | entry hd' hni => exact absurd (Except.ok.inj (hd' ▸ hd)) (hni _)
      | missing hd' => simp_all
      | failed hd' _ h' =>
          rw [hd] at hd'
          cases hd'
          exact ih h'
      | included hd' _ h' =>
          rw [hd] at hd'
          cases hd'
          exact absurd (ih h') (by simp)
  | included hd hp _ _ ih ihl =>
      cases h' with
      | bad hd' => simp_all
      | entry hd' hni => exact absurd (Except.ok.inj (hd' ▸ hd)) (hni _)
      | missing hd' => simp_all
      | failed hd' _ h' =>
          rw [hd] at hd'
          cases hd'
          exact absurd (ih h') (by simp)
      | included _ _ _ h' => exact ihl h'

theorem exists_reads_lines (n : Nat)
    (h : ∀ line ∈ lines, ∀ f, directive line = .ok (.includes f) →
      fs.pathExists (target file f) = true → ∃ e, Reads fs (.file (target file f)) e) :
    ∃ e, Reads fs (.lines file n lines) e := by
  induction lines generalizing n with
  | nil => exact ⟨none, .nil⟩
  | cons line lines ih =>
      obtain ⟨e, he⟩ := ih (n + 1) fun l hl => h l (List.mem_cons_of_mem _ hl)
      cases hd : directive line with
      | error msg => exact ⟨_, .bad hd⟩
      | ok d =>
          cases d with
          | includes f =>
              cases hp : fs.pathExists (target file f) with
              | false => exact ⟨_, .missing hd hp⟩
              | true =>
                  obtain ⟨e', he'⟩ := h line List.mem_cons_self f hd hp
                  cases e' with
                  | none => exact ⟨e, .included hd hp he' he⟩
                  | some e' => exact ⟨_, .failed hd hp he'⟩
          | blank => exact ⟨e, .entry hd (by simp) he⟩
          | header name => exact ⟨e, .entry hd (by simp) he⟩
          | keyValue key value => exact ⟨e, .entry hd (by simp) he⟩

/-- Reading a file whose includes are well founded comes to an end. -/
theorem exists_reads (hacc : Acc (Included fs) file) : ∃ e, Reads fs (.file file) e := by
  induction hacc with
  | intro file _ ih =>
      cases hopen : fs.openFile file with
      | none => exact ⟨_, .closed hopen⟩
      | some text =>
          obtain ⟨e, he⟩ : ∃ e, Reads fs (.lines file 0 (getlines text)) e := exists_reads_lines 0
            fun line hline f hd hp => ih (target file f) ⟨text, line, f, hopen, hline, hd, hp, rfl⟩
          exact ⟨e, .opened hopen he⟩

theorem Reads.success_eq_false {job : Job} {e : ParseResult} (h : Reads fs job (some e)) :
    e.success = false := by
  generalize he : some e = o at h
  induction h with
  | closed => cases he; rfl
  | opened _ _ ih => exact ih he
  | nil => cases he
  | bad => cases he; rfl
  | entry _ _ _ ih => exact ih he
  | missing => cases he; rfl
  | failed _ _ _ ih => exact ih he
  | included _ _ _ _ _ ih => exact ih he

/-! ## Where an error may stand -/

/-- Every include directive that is reached leads to a file that reads without error,
if it can be opened. -/
def IncludesClean (fs : FileSystem) (file : Str) (lineNum : Nat) (lines : List Str) : Prop :=
  ∀ pre line post f text, lines = pre ++ line :: post →
    Reads fs (.lines file lineNum pre) none → directive line = .ok (.includes f) →
    fs.pathExists (target file f) = true → fs.openFile (target file f) = some text →
    Reads fs (.file (target file f)) none

/-- The same of one line. -/
def LineClean (fs : FileSystem) (file line : Str) : Prop :=
  ∀ f text, directive line = .ok (.includes f) → fs.pathExists (target file f) = true →
    fs.openFile (target file f) = some text → Reads fs (.file (target file f)) none

theorem reads_cons_none :
    Reads fs (.lines file lineNum (line :: lines)) none ↔
      Reads fs (.lines file lineNum [line]) none ∧
        Reads fs (.lines file (lineNum + 1) lines) none := by
  constructor
  · intro h
    cases h with
    | entry hd hni h => exact ⟨.entry hd hni .nil, h⟩
    | included hd hp hf h => exact ⟨.included hd hp hf .nil, h⟩
  · rintro ⟨h, hl⟩
    cases h with
    | entry hd hni => exact .entry hd hni hl
    | included hd hp hf => exact .included hd hp hf hl

theorem includesClean_cons :
    IncludesClean fs file lineNum (line :: lines) ↔
      LineClean fs file line ∧
        (Reads fs (.lines file lineNum [line]) none →
          IncludesClean fs file (lineNum + 1) lines) := by
  constructor
  · intro h
    refine ⟨fun f text => h [] line lines f text rfl .nil, ?_⟩
    intro hline pre l post f text hsplit hpre
    subst hsplit
    exact h (line :: pre) l post f text rfl (reads_cons_none.mpr ⟨hline, hpre⟩)
  · rintro ⟨hline, h⟩ pre l post f text hsplit hpre
    cases pre with
    | nil =>
        obtain ⟨rfl, rfl⟩ := List.cons.inj hsplit
        exact hline f text
    | cons l' pre =>
        obtain ⟨rfl, rfl⟩ := List.cons.inj hsplit
        obtain ⟨hl', hpre⟩ := reads_cons_none.mp hpre
        exact h hl' pre l post f text rfl hpre

theorem includesClean_of_reads_none (h : Reads fs (.lines file lineNum lines) none) :
    IncludesClean fs file lineNum lines := by
  induction lines generalizing lineNum with
  | nil =>
      intro pre line post f text hsplit
      simp at hsplit
  | cons line lines ih =>
      refine includesClean_cons.mpr ⟨?_, fun _ => ih (reads_cons_none.mp h).2⟩
      intro f text hd hp hopen
      cases h with
      | entry hd' hni => exact absurd (Except.ok.inj (hd' ▸ hd)) (hni f)
      | included hd' _ hf =>
          rw [hd] at hd'
          cases hd'
          exact hf

/-! ## What `load` does -/

variable {fuel : Nat} {c c' : ConfigFile}

/-- A line that is not an include directive. -/
def apply (c : ConfigFile) : Directive → ConfigFile
  | .blank | .includes _ => c
  | .header name => c.enterSection name
  | .keyValue key value => c.record key value

@[simp] theorem baseDirStack_apply (c : ConfigFile) (d : Directive) :
    (c.apply d).baseDirStack = c.baseDirStack := by
  cases d with
  | header name => simp only [apply, enterSection]; split <;> rfl
  | _ => rfl

def runJob (fs : FileSystem) (fuel : Nat) : Job → ConfigFile → Run (ParseResult × ConfigFile)
  | .file path, c => load fs fuel path c
  | .lines file n lines, c => parseLines fs (load fs fuel) file n lines c

/-- While the lines of a file are read, its directory is the last one on the stack. -/
def Ready : Job → ConfigFile → Prop
  | .file _, _ => True
  | .lines file _ _, c => c.baseDirStack.head? = some (baseDirOf file)

/-- The stack that a job leaves when it succeeds. -/
def stackAfter : Job → ConfigFile → List Str
  | .file _, c => c.baseDirStack
  | .lines _ _ _, c => c.baseDirStack.tail

/-- Failing lines clear the object, or get stuck when an included file has done so. -/
def LinesFail (fs : FileSystem) (file : Str) (lineNum : Nat) (lines : List Str)
    (e : ParseResult) (r : Run (ParseResult × ConfigFile)) : Prop :=
  IncludesClean fs file lineNum lines ∧ r = .ok (e, fresh) ∨
    ¬ IncludesClean fs file lineNum lines ∧ r = .error .popEmpty

def Ends (fs : FileSystem) (c : ConfigFile) : Job → Option ParseResult →
    Run (ParseResult × ConfigFile) → Prop
  | job, none, r => ∃ c', r = .ok (.ok, c') ∧ c'.baseDirStack = stackAfter job c
  | .lines file n lines, some e, r => LinesFail fs file n lines e r
  | .file file, some e, r =>
      match fs.openFile file with
      | none => r = .ok (e, c)
      | some text => LinesFail fs file 0 (getlines text) e r

theorem popBaseDir_of_ready (h : c.baseDirStack.head? = some (baseDirOf file)) :
    c.popBaseDir = .ok { c with baseDirStack := c.baseDirStack.tail } := by
  unfold popBaseDir
  cases hstack : c.baseDirStack with
  | nil => rw [hstack] at h; cases h
  | cons dir dirs => rfl

theorem parseLines_of_ok {load : Str → ConfigFile → Run (ParseResult × ConfigFile)}
    (h : parseLine fs load line file (lineNum + 1) c = .ok (.ok, c')) :
    parseLines fs load file lineNum (line :: lines) c =
      parseLines fs load file (lineNum + 1) lines c' := by
  rw [parseLines, h]
  rfl

theorem parseLines_of_error {load : Str → ConfigFile → Run (ParseResult × ConfigFile)}
    {e : ParseResult} (he : e.success = false)
    (h : parseLine fs load line file (lineNum + 1) c = .ok (e, c'))
    (hready : c'.baseDirStack.head? = some (baseDirOf file)) :
    parseLines fs load file lineNum (line :: lines) c = .ok (e, fresh) := by
  rw [parseLines, h]
  show (if e.success then _ else _) = _
  rw [he, popBaseDir_of_ready hready]
  rfl

/-- After an included file has cleared the object there is no directory to remove. -/
theorem parseLines_of_fresh {load : Str → ConfigFile → Run (ParseResult × ConfigFile)}
    {e : ParseResult} (he : e.success = false)
    (h : parseLine fs load line file (lineNum + 1) c = .ok (e, fresh)) :
    parseLines fs load file lineNum (line :: lines) c = .error .popEmpty := by
  rw [parseLines, h]
  show (if e.success then _ else _) = _
  rw [he]
  rfl

theorem parseLines_of_stuck {load : Str → ConfigFile → Run (ParseResult × ConfigFile)}
    (h : parseLine fs load line file (lineNum + 1) c = .error .popEmpty) :
    parseLines fs load file lineNum (line :: lines) c = .error .popEmpty := by
  rw [parseLines, h]
  rfl

theorem parseLine_entry {load : Str → ConfigFile → Run (ParseResult × ConfigFile)}
    {d : Directive} (hd : directive line = .ok d) (hni : ∀ f, d ≠ .includes f) :
    parseLine fs load line file lineNum c = .ok (.ok, c.apply d) := by
  rw [parseLine_eq, hd]
  cases d with
  | includes f => exact absurd rfl (hni f)
  | _ => rfl

theorem headD_of_ready (h : c.baseDirStack.head? = some (baseDirOf file)) :
    c.baseDirStack.headD ['.'] = baseDirOf file := by
  cases hstack : c.baseDirStack with
  | nil => rw [hstack] at h; cases h
  | cons dir dirs =>
      rw [hstack] at h
      exact Option.some.inj h

theorem parseLine_includes {load : Str → ConfigFile → Run (ParseResult × ConfigFile)}
    {f : Str} (hd : directive line = .ok (.includes f)) (hp : fs.pathExists (target file f) = true)
    (hready : c.baseDirStack.head? = some (baseDirOf file)) :
    parseLine fs load line file lineNum c = load (target file f) c := by
  rw [parseLine_eq, hd, perform, headD_of_ready hready]
  exact if_pos hp

theorem parseLine_missing {load : Str → ConfigFile → Run (ParseResult × ConfigFile)}
    {f : Str} (hd : directive line = .ok (.includes f)) (hp : fs.pathExists (target file f) = false)
    (hready : c.baseDirStack.head? = some (baseDirOf file)) :
    parseLine fs load line file lineNum c =
      .ok (.error ("Included file not found: ".toList ++ target file f) file lineNum, c) := by
  rw [parseLine_eq, hd, perform, headD_of_ready hready]
  exact if_neg (by rw [target] at hp; simp [hp])

theorem Ends.cons {e : Option ParseResult} (hnil : Reads fs (.lines file lineNum [line]) none)
    (hline : LineClean fs file line)
    {r : Run (ParseResult × ConfigFile)} (hstack : c'.baseDirStack = c.baseDirStack)
    (h : Ends fs c' (.lines file (lineNum + 1) lines) e r) :
    Ends fs c (.lines file lineNum (line :: lines)) e r := by
  cases e with
  | none =>
      obtain ⟨c₁, rfl, hstack₁⟩ := h
      refine ⟨c₁, rfl, ?_⟩
      rw [hstack₁, stackAfter, stackAfter, hstack]
  | some e =>
      have hiff : IncludesClean fs file lineNum (line :: lines) ↔
          IncludesClean fs file (lineNum + 1) lines := by
        rw [includesClean_cons]
        exact ⟨fun h => h.2 hnil, fun h => ⟨hline, fun _ => h⟩⟩
      simpa only [Ends, LinesFail, hiff] using h

theorem includesClean_of_not_reads (hline : LineClean fs file line)
    (h : ¬ Reads fs (.lines file lineNum [line]) none) :
    IncludesClean fs file lineNum (line :: lines) :=
  includesClean_cons.mpr ⟨hline, fun hl => absurd hl h⟩

/-- What reading finds is what loading does. -/
theorem Reads.ends {job : Job} {e : Option ParseResult} (h : Reads fs job e) :
    ∃ N, ∀ c, Ready job c →
      ∃ r, (∀ fuel, N ≤ fuel → runJob fs fuel job c = r) ∧ Ends fs c job e r := by
  induction h with
  | @closed file hopen =>
      refine ⟨1, fun c _ => ⟨.ok (.error ("Cannot open file: ".toList ++ file) file 0, c),
        fun fuel hfuel => ?_, ?_⟩⟩
      · obtain ⟨fuel, rfl⟩ := Nat.exists_eq_add_of_le' hfuel
        rw [runJob, load, hopen]
      · rw [Ends, hopen]
  | @opened file text e hopen hlines ih =>
      obtain ⟨N, hN⟩ := ih
      refine ⟨N + 1, fun c _ => ?_⟩
      obtain ⟨r, hr, hends⟩ := hN (c.pushBaseDir (baseDirOf file)) rfl
      refine ⟨r, fun fuel hfuel => ?_, ?_⟩
      · cases fuel with
        | zero => cases hfuel
        | succ fuel =>
            rw [runJob, load, hopen]
            exact hr fuel (Nat.le_of_succ_le_succ hfuel)
      · cases e with
        | none => exact hends
        | some e =>
            rw [Ends, hopen]
            exact hends
  | nil =>
      refine ⟨0, fun c hready => ⟨_, fun fuel _ => ?_,
        ⟨{ c with baseDirStack := c.baseDirStack.tail }, rfl, rfl⟩⟩⟩
      rw [runJob, parseLines, popBaseDir_of_ready hready]
      rfl
  | @bad file line msg n lines hd =>
      refine ⟨0, fun c hready => ⟨_, fun fuel _ => ?_, .inl ⟨?_, rfl⟩⟩⟩
      · refine parseLines_of_error rfl ?_ hready
        rw [parseLine_eq, hd]
        rfl
      · refine includesClean_of_not_reads (fun f text hd' => ?_) (fun hr => ?_)
        · rw [hd] at hd'
          cases hd'
        · cases hr.det (.bad hd)
  | @entry file line n lines d e hd hni hr ih =>
      obtain ⟨N, hN⟩ := ih
      refine ⟨N, fun c hready => ?_⟩
      obtain ⟨r, hr, hends⟩ := hN (c.apply d) (by rwa [Ready, baseDirStack_apply])
      refine ⟨r, fun fuel hfuel => ?_, ?_⟩
      · rw [← hr fuel hfuel]
        exact parseLines_of_ok (parseLine_entry hd hni)
      · refine Ends.cons (.entry hd hni .nil) (fun f text hd' => ?_) (baseDirStack_apply c d) hends
        exact absurd (Except.ok.inj (hd ▸ hd')) (hni f)
  | @missing file line f n lines hd hp =>
      refine ⟨0, fun c hready => ⟨_, fun fuel _ => ?_, .inl ⟨?_, rfl⟩⟩⟩
      · exact parseLines_of_error rfl (parseLine_missing hd hp hready) hready
      · refine includesClean_of_not_reads (fun f' text hd' hp' => ?_) (fun hr => ?_)
        · rw [hd] at hd'
          cases hd'
          rw [hp] at hp'
          cases hp'
        · cases hr.det (.missing hd hp)
  | @failed file line f n lines e hd hp hr ih =>
      obtain ⟨N, hN⟩ := ih
      refine ⟨N, fun c hready => ?_⟩
      obtain ⟨r, hrun, hends⟩ := hN c trivial
      have hline {r' : Run (ParseResult × ConfigFile)} (hr' : r = r') {fuel : Nat}
          (hfuel : N ≤ fuel) : parseLine fs (load fs fuel) line file (n + 1) c = r' := by
        rw [parseLine_includes hd hp hready, ← hr']
        exact hrun fuel hfuel
      have hnot : ¬ Reads fs (.lines file n [line]) none := fun h => by
        cases h.det (.failed hd hp hr)
      rw [Ends] at hends
      cases hopen : fs.openFile (target file f) with
      | none =>
          rw [hopen] at hends
          refine ⟨_, fun fuel hfuel => parseLines_of_error hr.success_eq_false
            (hline hends hfuel) hready, .inl ⟨?_, rfl⟩⟩
          refine includesClean_of_not_reads (fun f' text hd' _ hopen' => ?_) hnot
          rw [hd] at hd'
          cases hd'
          rw [hopen] at hopen'
          cases hopen'
      | some text =>
          rw [hopen] at hends
          have hunclean : ¬ IncludesClean fs file n (line :: lines) := fun h => by
            have hclean := (includesClean_cons.mp h).1 f text hd hp hopen
            cases hclean.det hr
          refine ⟨_, fun fuel hfuel => ?_, .inr ⟨hunclean, rfl⟩⟩
          rcases hends with ⟨-, hends⟩ | ⟨-, hends⟩
          · exact parseLines_of_fresh hr.success_eq_false (hline hends hfuel)
          · exact parseLines_of_stuck (hline hends hfuel)
  | @included file line f n lines e hd hp hf _ ih ihl =>
      obtain ⟨N, hN⟩ := ih
      obtain ⟨M, hM⟩ := ihl
      refine ⟨max N M, fun c hready => ?_⟩
      obtain ⟨r₁, hrun₁, c₁, rfl, hstack₁⟩ := hN c trivial
      obtain ⟨r, hrun, hends⟩ := hM c₁ (by rwa [Ready, hstack₁])
      refine ⟨r, fun fuel hfuel => ?_, ?_⟩
      · rw [← hrun fuel ((Nat.le_max_right N M).trans hfuel)]
        refine parseLines_of_ok ?_
        rw [parseLine_includes hd hp hready]
        exact hrun₁ fuel ((Nat.le_max_left N M).trans hfuel)
      · refine Ends.cons (.included hd hp hf .nil) (fun f' text hd' _ _ => ?_) hstack₁ hends
        rw [hd] at hd'
        cases hd'
        exact hf

/-- What is read to an end is loaded to an end, unless an included file clears the object. -/
theorem Ends.isOk_iff {e : Option ParseResult} {r : Run (ParseResult × ConfigFile)}
    (hends : Ends fs c (.file file) e r) (h : Reads fs (.file file) e) : (∃ r', r = .ok r') ↔
      ∀ text, fs.openFile file = some text → IncludesClean fs file 0 (getlines text) := by
  cases e with
  | none =>
      obtain ⟨c', rfl, -⟩ := hends
      refine iff_of_true ⟨_, rfl⟩ fun text hopen => ?_
      cases h with
      | opened hopen' hlines =>
          rw [hopen] at hopen'
          cases hopen'
          exact includesClean_of_reads_none hlines
  | some e =>
      rw [Ends] at hends
      cases hopen : fs.openFile file with
      | none =>
          rw [hopen] at hends
          exact iff_of_true ⟨_, hends⟩ (by simp)
      | some text =>
          rw [hopen] at hends
          rcases hends with ⟨hclean, rfl⟩ | ⟨hunclean, rfl⟩
          · refine iff_of_true ⟨_, rfl⟩ ?_
            rintro text' heq
            cases heq
            exact hclean
          · refine iff_of_false ?_ fun hclean => hunclean (hclean text rfl)
            rintro ⟨r', hr'⟩
            cases hr'

/-! ## The stack is balanced -/

/-- `load` comes to an end without removing from an empty stack; if it succeeds the stack
is what it was, and if something that it parses is wrong it returns that error with the
object cleared. -/
def LoadsBalanced (fs : FileSystem) (file : Str) (c : ConfigFile) : Prop :=
  ∃ N r, (∀ fuel, N ≤ fuel → load fs fuel file c = .ok r) ∧
    (r.1.success = true → r.2.baseDirStack = c.baseDirStack) ∧
    ∀ text e, fs.openFile file = some text →
      Reads fs (.lines file 0 (getlines text)) (some e) → r = (e, fresh)

/-- `main` includes `sub`, which has this text. -/
def oneInclude (sub : Str) : FileSystem where
  pathExists p := p = "./sub".toList
  openFile p :=
    if p = "main".toList then some "include sub".toList
    else if p = "./sub".toList then some sub
    else none

theorem acc_oneInclude {sub : Str}
    (h : ∀ line ∈ getlines sub, ∀ f, directive line ≠ .ok (.includes f)) :
    Acc (Included (oneInclude sub)) "main".toList := by
  have hsub : Acc (Included (oneInclude sub)) "./sub".toList := by
    refine ⟨_, ?_⟩
    rintro q ⟨text, line, f, hopen, hline, hd, -⟩
    obtain rfl : sub = text := Option.some.inj hopen
    exact absurd hd (h line hline f)
  refine ⟨_, ?_⟩
  rintro q ⟨-, -, -, -, -, -, hq, -⟩
  obtain rfl : q = "./sub".toList := of_decide_eq_true hq
  exact hsub

end Lorelei.Support.ConfigFile
