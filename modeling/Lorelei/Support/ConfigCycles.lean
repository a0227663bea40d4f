import Mathlib.Order.Preorder.Finite
import Lorelei.Support.ConfigLoad

/-!
# Files that include one another for ever

`load` keeps no record of the files it is in, so it comes to an end only where every chain
of include directives does. A directive counts as far as it is reached: the lines before it
are read without error.
-/

namespace Lorelei.Support.ConfigFile

variable {fs : FileSystem} {file : Str} {lineNum : Nat} {line : Str} {lines : List Str}
  {c : ConfigFile}

/-- An include directive of `p` that is reached leads to `q`. -/
def Reaches (fs : FileSystem) (q p : Str) : Prop :=
  ∃ text pre line post f, fs.openFile p = some text ∧ getlines text = pre ++ line :: post ∧
    Reads fs (.lines p 0 pre) none ∧ directive line = .ok (.includes f) ∧
    fs.pathExists q = true ∧ q = target p f

/-- Include directives that lead from the file to further and further files. -/
def Endless (fs : FileSystem) (file : Str) : Prop :=
  ∃ chain : Nat → Str, chain 0 = file ∧ ∀ n, Reaches fs (chain (n + 1)) (chain n)

theorem acc_iff_not_endless : Acc (Reaches fs) file ↔ ¬ Endless fs file := by
  rw [← not_iff_not, not_not, not_acc_iff_exists_descending_chain]
  rfl

/-! ## What is read to its end -/

/-- What the lines that are left reach is well founded. -/
def Grounded (fs : FileSystem) : Job → Prop
  | .file file => Acc (Reaches fs) file
  | .lines file n lines => ∀ pre line post f, lines = pre ++ line :: post →
      Reads fs (.lines file n pre) none → directive line = .ok (.includes f) →
      fs.pathExists (target file f) = true → Acc (Reaches fs) (target file f)

theorem grounded_cons
    (hline : ∀ f, directive line = .ok (.includes f) → fs.pathExists (target file f) = true →
      Acc (Reaches fs) (target file f))
    (hlines : Reads fs (.lines file lineNum [line]) none →
      Grounded fs (.lines file (lineNum + 1) lines)) :
    Grounded fs (.lines file lineNum (line :: lines)) := by
  intro pre l post f hsplit hpre
  cases pre with
  | nil =>
      obtain ⟨rfl, rfl⟩ := List.cons.inj hsplit
      exact hline f
  | cons l' pre =>
      obtain ⟨rfl, rfl⟩ := List.cons.inj hsplit
      obtain ⟨hl', hpre⟩ := reads_cons_none.mp hpre
      exact hlines hl' pre l post f rfl hpre

theorem Reads.grounded {job : Job} {e : Option ParseResult} (h : Reads fs job e) :
    Grounded fs job := by
  induction h with
  | closed hopen =>
      refine ⟨_, ?_⟩
      rintro q ⟨text, pre, line, post, f, hopen', -⟩
      rw [hopen] at hopen'
      cases hopen'
  | opened hopen _ ih =>
      refine ⟨_, ?_⟩
      rintro q ⟨text, pre, line, post, f, hopen', hsplit, hpre, hd, hp, rfl⟩
      rw [hopen] at hopen'
      cases hopen'
      exact ih pre line post f hsplit hpre hd hp
  | nil =>
      intro pre line post f hsplit
      simp at hsplit
  | bad hd =>
      refine grounded_cons (fun f hd' => ?_) (fun hline => ?_)
      · rw [hd] at hd'
        cases hd'
      · cases hline.det (.bad hd)
  | entry hd hni _ ih =>
      exact grounded_cons (fun f hd' => absurd (Except.ok.inj (hd ▸ hd')) (hni f)) fun _ => ih
  | missing hd hp =>
      refine grounded_cons (fun f hd' hp' => ?_) (fun hline => ?_)
      · rw [hd] at hd'
        cases hd'
        rw [hp] at hp'
        cases hp'
      · cases hline.det (.missing hd hp)
  | failed hd hp hr ih =>
      refine grounded_cons (fun f hd' _ => ?_) (fun hline => ?_)
      · rw [hd] at hd'
        cases hd'
        exact ih
      · cases hline.det (.failed hd hp hr)
  | included hd _ _ _ ih ihl =>
      refine grounded_cons (fun f hd' _ => ?_) (fun _ => ihl)
      rw [hd] at hd'
      cases hd'
      exact ih

/-- Lines are read to an end if the files are that they reach. -/
theorem exists_reads_of_reached
    (h : ∀ pre line post f, lines = pre ++ line :: post → Reads fs (.lines file lineNum pre) none →
      directive line = .ok (.includes f) → fs.pathExists (target file f) = true →
      ∃ e, Reads fs (.file (target file f)) e) :
    ∃ e, Reads fs (.lines file lineNum lines) e := by
  induction lines generalizing lineNum with
  | nil => exact ⟨none, .nil⟩
  | cons line lines ih =>
      have hrest (hline : Reads fs (.lines file lineNum [line]) none) :
          ∃ e, Reads fs (.lines file (lineNum + 1) lines) e := by
        refine ih fun pre l post f hsplit hpre => ?_
        subst hsplit
        exact h (line :: pre) l post f rfl (reads_cons_none.mpr ⟨hline, hpre⟩)
      have hentry {d : Directive} (hd : directive line = .ok d) (hni : ∀ f, d ≠ .includes f) :
          ∃ e, Reads fs (.lines file lineNum (line :: lines)) e := by
        obtain ⟨e, he⟩ := hrest (.entry hd hni .nil)
        exact ⟨e, .entry hd hni he⟩
      cases hd : directive line with
      | error msg => exact ⟨_, .bad hd⟩
      | ok d =>
          cases d with
          | includes f =>
              cases hp : fs.pathExists (target file f) with
              | false => exact ⟨_, .missing hd hp⟩
              | true =>
                  obtain ⟨e, he⟩ := h [] line lines f rfl .nil hd hp
                  cases e with
                  | some e => exact ⟨_, .failed hd hp he⟩
                  | none =>
                      obtain ⟨e, hlines⟩ := hrest (.included hd hp he .nil)
                      exact ⟨e, .included hd hp he hlines⟩
          | blank => exact hentry hd (by simp)
          | header name => exact hentry hd (by simp)
          | keyValue key value => exact hentry hd (by simp)

theorem exists_reads_of_acc (h : Acc (Reaches fs) file) : ∃ e, Reads fs (.file file) e := by
  induction h with
  | intro file _ ih =>
      cases hopen : fs.openFile file with
      | none => exact ⟨_, .closed hopen⟩
      | some text =>
          obtain ⟨e, he⟩ : ∃ e, Reads fs (.lines file 0 (getlines text)) e :=
            exists_reads_of_reached fun pre line post f hsplit hpre hd hp =>
              ih _ ⟨text, pre, line, post, f, hopen, hsplit, hpre, hd, hp, rfl⟩
          exact ⟨e, .opened hopen he⟩

/-! ## What is loaded to its end -/

section Fuel

variable {α : Type} {load load' : Str → ConfigFile → Run (ParseResult × ConfigFile)}

/-- Runs that agree unless the first one is out of fuel. -/
def Agree (r r' : Run α) : Prop := r ≠ .error .outOfFuel → r' = r

theorem Agree.bind {β : Type} {r r' : Run α} {f f' : α → Run β} (h : Agree r r')
    (hf : ∀ a, Agree (f a) (f' a)) : Agree (r >>= f) (r' >>= f') := by
  intro hrun
  cases r with
  | error stuck =>
      rw [h fun heq => hrun (heq ▸ rfl)]
      rfl
  | ok a =>
      rw [h (by simp)]
      exact hf a hrun

theorem agree_perform (h : ∀ path c, Agree (load path c) (load' path c))
    (d : Except Str Directive) :
    Agree (perform fs load file lineNum c d) (perform fs load' file lineNum c d) := by
  rcases d with msg | _ | f | name | ⟨key, value⟩
  · exact fun _ => rfl
  · exact fun _ => rfl
  · rw [perform, perform]
    split
    · exact h _ c
    · exact fun _ => rfl
  · exact fun _ => rfl
  · exact fun _ => rfl

theorem agree_parseLines (h : ∀ path c, Agree (load path c) (load' path c)) :
    Agree (parseLines fs load file lineNum lines c) (parseLines fs load' file lineNum lines c) := by
  induction lines generalizing lineNum c with
  | nil => exact fun _ => rfl
  | cons line lines ih =>
      rw [parseLines, parseLines, parseLine_eq, parseLine_eq]
      refine (agree_perform h _).bind fun a => ?_
      obtain ⟨result, c'⟩ := a
      dsimp only
      by_cases hsuccess : result.success = true
      · rw [if_pos hsuccess, if_pos hsuccess]
        exact ih
      · rw [if_neg hsuccess, if_neg hsuccess]
        exact fun _ => rfl

/-- More fuel changes nothing. -/
theorem agree_load {fuel fuel' : Nat} (hle : fuel ≤ fuel') (path : Str) (c : ConfigFile) :
    Agree (ConfigFile.load fs fuel path c) (ConfigFile.load fs fuel' path c) := by
  induction fuel generalizing fuel' path c with
  | zero => exact fun hrun => absurd rfl hrun
  | succ fuel ih =>
      obtain ⟨fuel', rfl⟩ := Nat.exists_eq_add_of_le' (Nat.le_trans (Nat.succ_pos fuel) hle)
      rw [ConfigFile.load, ConfigFile.load]
      cases fs.openFile path with
      | none => exact fun _ => rfl
      | some text => exact agree_parseLines (ih (Nat.le_of_succ_le_succ hle))

end Fuel

/-- A file that is loaded without error leaves the stack as it was, whatever the fuel. -/
theorem load_of_reads {fuel : Nat} (h : Reads fs (.file file) none)
    (hrun : load fs fuel file c ≠ .error .outOfFuel) :
    ∃ c', load fs fuel file c = .ok (.ok, c') ∧ c'.baseDirStack = c.baseDirStack := by
  obtain ⟨N, hN⟩ := h.ends
  obtain ⟨r, hr, c', rfl, hstack⟩ := hN c trivial
  have hagree := agree_load (Nat.le_max_right N fuel) file c hrun
  exact ⟨c', hagree.symm.trans (hr _ (Nat.le_max_left N fuel)), hstack⟩

theorem exists_reads_of_parseLines {fuel : Nat}
    (hload : ∀ path c, load fs fuel path c ≠ .error .outOfFuel → ∃ e, Reads fs (.file path) e)
    (hready : c.baseDirStack.head? = some (baseDirOf file))
    (hrun : parseLines fs (load fs fuel) file lineNum lines c ≠ .error .outOfFuel) :
    ∃ e, Reads fs (.lines file lineNum lines) e := by
  induction lines generalizing lineNum c with
  | nil => exact ⟨none, .nil⟩
  | cons line lines ih =>
      have hentry {d : Directive} (hd : directive line = .ok d) (hni : ∀ f, d ≠ .includes f) :
          ∃ e, Reads fs (.lines file lineNum (line :: lines)) e := by
        rw [parseLines_of_ok (parseLine_entry hd hni)] at hrun
        obtain ⟨e, he⟩ := ih (by rwa [baseDirStack_apply]) hrun
        exact ⟨e, .entry hd hni he⟩
      cases hd : directive line with
      | error msg => exact ⟨_, .bad hd⟩
      | ok d =>
          cases d with
          | includes f =>
              cases hp : fs.pathExists (target file f) with
              | false => exact ⟨_, .missing hd hp⟩
              | true =>
                  have hparse : parseLine fs (load fs fuel) line file (lineNum + 1) c =
                    load fs fuel (target file f) c := parseLine_includes hd hp hready
                  have hinner : load fs fuel (target file f) c ≠ .error .outOfFuel := by
                    intro hstuck
                    refine hrun ?_
                    rw [parseLines, hparse, hstuck]
                    rfl
                  obtain ⟨e, he⟩ := hload _ _ hinner
                  cases e with
                  | some e => exact ⟨_, .failed hd hp he⟩
                  | none =>
                      obtain ⟨c', hc', hstack⟩ := load_of_reads he hinner
                      rw [parseLines_of_ok (hparse.trans hc')] at hrun
                      obtain ⟨e, hlines⟩ := ih (hstack ▸ hready) hrun
                      exact ⟨e, .included hd hp he hlines⟩
          | blank => exact hentry hd (by simp)
          | header name => exact hentry hd (by simp)
          | keyValue key value => exact hentry hd (by simp)

/-- What is loaded with some fuel is read to an end. -/
theorem exists_reads_of_load {fuel : Nat} (hrun : load fs fuel file c ≠ .error .outOfFuel) :
    ∃ e, Reads fs (.file file) e := by
  induction fuel generalizing file c with
  | zero => exact absurd rfl hrun
  | succ fuel ih =>
      rw [load] at hrun
      cases hopen : fs.openFile file with
      | none => exact ⟨_, .closed hopen⟩
      | some text =>
          rw [hopen] at hrun
          obtain ⟨e, he⟩ := exists_reads_of_parseLines (fun path c => ih) rfl hrun
          exact ⟨e, .opened hopen he⟩

/-! ## Loading comes to an end -/

/-- `load` comes to an end, with success or an error. -/
def LoadEnds (fs : FileSystem) (file : Str) (c : ConfigFile) : Prop :=
  ∃ N r, ∀ fuel, N ≤ fuel → load fs fuel file c = .ok r

theorem loadEnds_of_reads {e : Option ParseResult} (h : Reads fs (.file file) e) :
    LoadEnds fs file c ↔
      ∀ text, fs.openFile file = some text → IncludesClean fs file 0 (getlines text) := by
  obtain ⟨N, hN⟩ := h.ends
  obtain ⟨r, hrun, hends⟩ := hN c trivial
  rw [← hends.isOk_iff h]
  constructor
  · rintro ⟨M, r', hrun'⟩
    exact ⟨r', (hrun _ (Nat.le_max_left N M)).symm.trans (hrun' _ (Nat.le_max_right N M))⟩
  · rintro ⟨r', rfl⟩
    exact ⟨N, r', hrun⟩

/-- Nothing well founded comes back to itself. -/
theorem not_rel_of_acc {α : Type} {r : α → α → Prop} {a : α} (h : Acc r a) : ¬ r a a := by
  induction h with
  | intro a _ ih => exact fun haa => ih a haa haa

/-- Among finitely many files, includes are endless if they lead to a file that includes
itself, directly or through others. -/
theorem endless_iff (hfin : {p | fs.openFile p ≠ none}.Finite) :
    Endless fs file ↔ ∃ p, Relation.ReflTransGen (Reaches fs) p file ∧
      Relation.TransGen (Reaches fs) p p := by
  constructor
  · rintro ⟨chain, rfl, hchain⟩
    have hlt {i j : Nat} (hij : i < j) : Relation.TransGen (Reaches fs) (chain j) (chain i) :=
      Nat.rel_of_forall_rel_succ_of_lt (Function.swap (Relation.TransGen (Reaches fs)))
        (fun n => .single (hchain n)) hij
    have hopens (n : Nat) : chain n ∈ {p | fs.openFile p ≠ none} := by
      obtain ⟨text, -, -, -, -, hopen, -⟩ := hchain n
      simp [hopen]
    obtain ⟨i, j, hij, heq⟩ := Set.Finite.exists_lt_map_eq_of_forall_mem hopens hfin
    have hcycle := hlt hij
    rw [← heq] at hcycle
    refine ⟨chain i, ?_, hcycle⟩
    rcases Nat.eq_zero_or_pos i with rfl | hpos
    · exact .refl
    · exact (hlt hpos).to_reflTransGen
  · rintro ⟨p, hp, hcycle⟩
    by_contra hend
    have hacc : Acc (Reaches fs) p := by
      clear hcycle
      induction hp using Relation.ReflTransGen.head_induction_on with
      | refl => exact acc_iff_not_endless.mpr hend
      | head hstep _ ih => exact ih.inv hstep
    exact not_rel_of_acc hacc.transGen hcycle

/-- `main` includes itself. -/
def selfInclude : FileSystem where
  pathExists p := p = "./main".toList
  openFile p := if p = "main".toList ∨ p = "./main".toList then some "include main".toList else none

theorem load_selfInclude (fuel : Nat) (c : ConfigFile) :
    load selfInclude fuel "./main".toList c = .error .outOfFuel := by
  induction fuel generalizing c with
  | zero => rfl
  | succ fuel ih =>
      show parseLines selfInclude (load selfInclude fuel) "./main".toList 0 ["include main".toList]
        (c.pushBaseDir ['.']) = _
      rw [parseLines]
      have hparse : parseLine selfInclude (load selfInclude fuel) "include main".toList
          "./main".toList 1 (c.pushBaseDir ['.']) =
            load selfInclude fuel "./main".toList (c.pushBaseDir ['.']) := rfl
      rw [hparse, ih]
      rfl

end Lorelei.Support.ConfigFile
