import Mathlib.Data.List.Forall2
import Lorelei.Trampoline.Substituter

/-!
# When the substitutions of a call are undone

The contexts of one slot record what it held before each `init` that changed it, and
finishing them in the order of initialisation leaves the last record, not the first.
A slot that is reached once is therefore restored, and so is one that only the first
`init` changes; a slot that holds a callback foreign to the receiver and is reached
again ends up with the stub that was put there before the last `init`.
-/

namespace Lorelei.Trampoline

open ByteMemory Interning Function

variable {κ : Type}

/-! ## Finishing contexts -/

/-- What the contexts of a slot recorded, in their order. -/
def records (ctxs : List CallbackContext) (s : Word) : List Word :=
  (ctxs.filter fun c => c.p_fp = s ∧ c.org_fp ≠ 0).map CallbackContext.org_fp

theorem records_cons_of_zero {c : CallbackContext} {ctxs : List CallbackContext} {s : Word}
    (h : c.org_fp = 0) : records (c :: ctxs) s = records ctxs s := by
  simp [records, h]

theorem records_cons_of_ne {c : CallbackContext} {ctxs : List CallbackContext} {s : Word}
    (h : c.p_fp ≠ s) : records (c :: ctxs) s = records ctxs s := by
  simp [records, h]

theorem records_cons {c : CallbackContext} {ctxs : List CallbackContext} {s : Word}
    (h : c.p_fp = s) (h0 : c.org_fp ≠ 0) :
    records (c :: ctxs) s = c.org_fp :: records ctxs s := by
  have hkeep : decide (c.p_fp = s ∧ c.org_fp ≠ 0) = true := decide_eq_true ⟨h, h0⟩
  rw [records, List.filter_cons, if_pos hkeep, List.map_cons, records]

/-- Slots are words that do not overlap. -/
def Apart (slots : Set Word) : Prop :=
  ∀ s ∈ slots, ∀ s' ∈ slots, s ≠ s' → Disjoint (block s 8) (block s' 8)

/-- The contexts that have something to restore restore slots. -/
def Targets (slots : Set Word) (ctxs : List CallbackContext) : Prop :=
  ∀ c ∈ ctxs, c.org_fp ≠ 0 → c.p_fp ∈ slots

variable {w w' : World κ} {slots : Set Word} {s a : Word} {ctxs ctxs' : List CallbackContext}

@[simp] theorem finiAll_nil : finiAll w [] = w := rfl

@[simp] theorem finiAll_cons {c : CallbackContext} :
    finiAll w (c :: ctxs) = finiAll (c.fini w) ctxs := rfl

theorem finiAll_append : finiAll w (ctxs ++ ctxs') = finiAll (finiAll w ctxs) ctxs' :=
  List.foldl_append

/-- Finishing contexts leaves a slot with what was recorded last. -/
theorem load64_finiAll (hapart : Apart slots) (hs : s ∈ slots) (htargets : Targets slots ctxs) :
    load64 (finiAll w ctxs).mem s = (records ctxs s).getLast?.getD (load64 w.mem s) := by
  induction ctxs generalizing w with
  | nil => rfl
  | cons c ctxs ih =>
      have htail : Targets slots ctxs := fun c' hc' => htargets c' (List.mem_cons_of_mem c hc')
      rw [finiAll_cons, ih htail, CallbackContext.fini]
      by_cases h0 : c.org_fp = 0
      · rw [if_neg (not_not.mpr h0), records_cons_of_zero h0]
      rw [if_pos h0]
      by_cases hc : c.p_fp = s
      · rw [records_cons hc h0, List.getLast?_cons, World.store, hc, load64_store64]
        rfl
      · have hdisj := hapart s hs c.p_fp (htargets c List.mem_cons_self h0) (Ne.symm hc)
        rw [records_cons_of_ne hc, World.store, load64_store64_of_disjoint hdisj]

/-- What is apart from the slots is left alone. -/
theorem load64_finiAll_of_disjoint (ha : ∀ s ∈ slots, Disjoint (block a 8) (block s 8))
    (htargets : Targets slots ctxs) : load64 (finiAll w ctxs).mem a = load64 w.mem a := by
  induction ctxs generalizing w with
  | nil => rfl
  | cons c ctxs ih =>
      have htail : Targets slots ctxs := fun c' hc' => htargets c' (List.mem_cons_of_mem c hc')
      rw [finiAll_cons, ih htail, CallbackContext.fini]
      by_cases h0 : c.org_fp = 0
      · rw [if_neg (not_not.mpr h0)]
      · rw [if_pos h0, World.store, load64_store64_of_disjoint
          (ha c.p_fp (htargets c List.mem_cons_self h0))]

/-! ## One substitution -/

/-- What the walks of a call reach in the memory before it. -/
structure Reached (κ : Type) where
  mem : Memory
  slots : Set Word
  pointers : Set Word
  keys : Set κ

namespace Reached

variable (R : Reached κ) (P : Proc κ) (O : Originals)

/-- The function behind the pointer in a slot. -/
def real (s : Word) : Word := unwrapTrampoline R.mem (load64 R.mem s)

/-- The function the allocator is asked for at a slot, if there is one. -/
def request (s : Word) : Option Word :=
  if R.real s ≠ 0 ∧ P.isGuest ≠ P.isHostAddress (R.real s) then some (R.real s) else none

/-- Where `mmap` puts the table of an instance. -/
def region (k : κ) : Set Word := block (P.place k).table (P.place k).size

/-- The slots, the pointers to them and the tables do not overlap. -/
structure Layout : Prop where
  slots_apart : Apart R.slots
  pointers_apart : ∀ a ∈ R.pointers, ∀ s ∈ R.slots, Disjoint (block a 8) (block s 8)
  places_apart : ∀ k ∈ R.keys, ∀ k' ∈ R.keys, k ≠ k' → Disjoint (region P k) (region P k')
  words_apart : ∀ a ∈ R.slots ∪ R.pointers, ∀ k ∈ R.keys, Disjoint (block a 8) (region P k)
  places_clear : ∀ k ∈ R.keys, O.Clear (region P k)
  slots_clear : ∀ s ∈ R.slots, O.Clear (block s 8)

/-- The state between two substitutions: every slot still stands for its function. -/
structure Ready (w : World κ) (ds : κ → List Word) : Prop where
  sound : Sound O P.handler w ds
  untouched : ∀ a ∈ R.slots ∪ R.pointers, w.Untouched P.handler (block a 8)
  fresh : ∀ k ∈ R.keys, w.Fresh P.handler k (P.place k)
  pointers : ∀ a ∈ R.pointers, load64 w.mem a = load64 R.mem a
  denotes : ∀ s ∈ R.slots, (R.real s = 0 ∧ load64 w.mem s = 0) ∨
    Denotes O w ds (load64 w.mem s) (R.real s)

/-- What a substitution does to its slot and its context. -/
inductive Outcome (w w' : World κ) (ds' : κ → List Word) (v : Word × κ) (ctx : CallbackContext) :
    Prop
  | null (before : load64 w.mem v.1 = 0) (after : load64 w'.mem v.1 = 0) (ctx : ctx.org_fp = 0)
  | kept (native : P.isGuest = P.isHostAddress (R.real v.1))
      (before : load64 w.mem v.1 = R.real v.1)
      (after : load64 w'.mem v.1 = R.real v.1) (ctx : ctx.org_fp = 0)
  | unwrapped (native : P.isGuest = P.isHostAddress (R.real v.1)) (before : load64 w.mem v.1 ≠ 0)
      (changed : load64 w.mem v.1 ≠ R.real v.1)
      (after : load64 w'.mem v.1 = R.real v.1) (ctx : ctx = ⟨v.1, load64 w.mem v.1⟩)
  | wrapped (foreign : P.isGuest ≠ P.isHostAddress (R.real v.1)) (before : load64 w.mem v.1 ≠ 0)
      (after : StubOf w' ds' v.2 (R.real v.1) (load64 w'.mem v.1))
      (ctx : ctx = ⟨v.1, load64 w.mem v.1⟩)

section Visit

variable {R P O} {ds : κ → List Word} {k : κ} {v : Word × κ} {f r : Word}

/-- What the walks reach is apart from the bytes an allocation may change. -/
theorem Ready.reach_disjoint (hL : R.Layout P O) (hR : R.Ready P O w ds) (hk : k ∈ R.keys)
    (ha : a ∈ R.slots ∪ R.pointers) :
    Disjoint (block a 8) ((w.state k).reach (P.place k)) := by
  rw [State.reach]
  by_cases hnull : (w.state k).trampoline = 0
  · rw [if_pos hnull]
    exact hL.words_apart a ha k hk
  · rw [if_neg hnull]
    exact hR.untouched a ha k hnull

/-- Writing a slot with a pointer that stands for the same function leaves everything
ready. -/
theorem Ready.store (hL : R.Layout P O) (hR : R.Ready P O w ds) (hs : s ∈ R.slots)
    (hr : (R.real s = 0 ∧ r = 0) ∨ Denotes O w ds r (R.real s)) :
    R.Ready P O (w.store s r) ds ∧
      ∀ a ∈ R.slots, a ≠ s → load64 (w.store s r).mem a = load64 w.mem a := by
  have hkeep : ∀ a ∈ R.slots, a ≠ s → load64 (w.store s r).mem a = load64 w.mem a :=
    fun a ha hne => load64_store64_of_disjoint (hL.slots_apart a ha s hs hne)
  refine ⟨⟨hR.sound.store (hL.slots_clear s hs) (hR.untouched s (.inl hs)), hR.untouched,
    hR.fresh, ?_, ?_⟩, hkeep⟩
  · intro a ha
    rw [World.store, load64_store64_of_disjoint (hL.pointers_apart a ha s hs)]
    exact hR.pointers a ha
  · intro s' hs'
    by_cases h : s' = s
    · subst h
      rw [World.store, load64_store64]
      exact hr
    · rw [hkeep s' hs' h]
      exact hR.denotes s' hs'

theorem request_of_foreign (h0 : R.real s ≠ 0) (h : P.isGuest ≠ P.isHostAddress (R.real s)) :
    R.request P s = some (R.real s) := if_pos ⟨h0, h⟩

theorem request_of_native (h : P.isGuest = P.isHostAddress (R.real s)) :
    R.request P s = none := if_neg fun hand => hand.2 h

theorem request_of_null (h : R.real s = 0) : R.request P s = none := if_neg fun hand => hand.1 h

variable [DecidableEq κ]

/-- An allocation leaves everything ready. -/
theorem Ready.alloc (hL : R.Layout P O) (hR : R.Ready P O w ds) (hk : k ∈ R.keys) (hf : f ∈ O.all)
    (hroom : (intern (ds k) f).length ≤ (P.handler k).count) :
    ∃ r w', World.alloc P.handler k (P.place k) w f = some (r, w') ∧
      StubOf w' (update ds k (intern (ds k) f)) k f r ∧
      R.Ready P O w' (update ds k (intern (ds k) f)) ∧
      Extends w ds w' (update ds k (intern (ds k) f)) ∧
      ∀ a ∈ R.slots ∪ R.pointers, load64 w'.mem a = load64 w.mem a := by
  obtain ⟨r, w', halloc, hstub, hsound, hext, htramp, hframe⟩ :=
    hR.sound.alloc (hR.fresh k hk) (hL.places_clear k hk) hf hroom
  have hkeep : ∀ a ∈ R.slots ∪ R.pointers, load64 w'.mem a = load64 w.mem a := fun a ha =>
    load64_congr fun x hx => hframe x (Set.disjoint_left.mp (hR.reach_disjoint hL hk ha) hx)
  refine ⟨r, w', halloc, hstub, ⟨hsound, ?_, ?_, ?_, ?_⟩, hext, hkeep⟩
  · intro a ha
    exact (hR.untouched a ha).update (hL.words_apart a ha k hk) htramp
  · intro k' hk' hnull k'' hk''
    have hne : k' ≠ k := by
      rintro rfl
      have htable := hR.sound.holds
      rw [htramp, update_self, State.tableFor] at hnull
      by_cases h0 : (w.state k').trampoline = 0
      · rw [if_pos h0] at hnull
        exact (P.place k').nonnull hnull
      · rw [if_neg h0] at hnull
        exact h0 hnull
    have hnull' : w.trampoline k' = 0 := by
      rwa [htramp, update_of_ne hne] at hnull
    rcases World.tableBlock_update htramp hk'' with ⟨hold, hblock⟩ | ⟨-, -, hsub⟩
    · rw [hblock]
      exact hR.fresh k' hk' hnull' k'' hold
    · exact (hL.places_apart k' hk' k hk hne).mono_right hsub
  · intro a ha
    rw [hkeep a (.inr ha)]
    exact hR.pointers a ha
  · intro s hs
    rw [hkeep s (.inl hs)]
    rcases hR.denotes s hs with hzero | hden
    · exact .inl hzero
    · exact .inr (hR.sound.denotes_extends hext hden)

/-- The tables after a substitution. -/
def record (R : Reached κ) (P : Proc κ) (ds : κ → List Word) (v : Word × κ) : κ → List Word :=
  match R.request P v.1 with
  | some f => update ds v.2 (intern (ds v.2) f)
  | none => ds

/-- The tables after a walk. -/
def recordAll (R : Reached κ) (P : Proc κ) (ds : κ → List Word) (vs : List (Word × κ)) :
    κ → List Word :=
  vs.foldl (R.record P) ds

theorem record_of_request (ds : κ → List Word) (h : R.request P v.1 = some f) :
    R.record P ds v = update ds v.2 (intern (ds v.2) f) := by
  rw [record, h]

theorem record_of_none (h : R.request P v.1 = none) : R.record P ds v = ds := by
  rw [record, h]

/-- A substitution leaves everything ready and changes no other slot. -/
theorem Ready.visit (hL : R.Layout P O) (hR : R.Ready P O w ds) (hs : v.1 ∈ R.slots)
    (hk : v.2 ∈ R.keys) (hroom : ∀ k, (R.record P ds v k).length ≤ (P.handler k).count) :
    ∃ ctx w', P.init w v = some (ctx, w') ∧ R.Ready P O w' (R.record P ds v) ∧
      Extends w ds w' (R.record P ds v) ∧
      (∀ a ∈ R.slots, a ≠ v.1 → load64 w'.mem a = load64 w.mem a) ∧
      R.Outcome P w w' (R.record P ds v) v ctx := by
  rcases hR.denotes v.1 hs with ⟨hreal0, hnull⟩ | hden
  · -- a null pointer stays one, whatever side null is taken to be on
    rw [record_of_none (request_of_null hreal0)]
    by_cases hside : P.isGuest = P.isHostAddress 0
    · exact ⟨{}, w, CallbackContext.init_of_native hnull unwrapTrampoline_zero hside, hR,
        Extends.refl w ds, fun _ _ _ => rfl, .null hnull hnull rfl⟩
    · obtain ⟨hR', hkeep⟩ := hR.store hL hs (.inl ⟨hreal0, rfl⟩)
      exact ⟨_, _, CallbackContext.init_of_foreign hnull unwrapTrampoline_zero hside
        (World.alloc_null _), hR', Extends.refl w ds, hkeep,
        .null hnull (load64_store64 _ _ _) rfl⟩
  · have horiginal := hR.sound.mem_all_of_denotes hden
    have hunwrap := hR.sound.unwrap_eq hden
    have hreal0 : R.real v.1 ≠ 0 := Originals.ne_zero horiginal
    have hload0 : load64 w.mem v.1 ≠ 0 := by
      intro h0
      rw [h0, unwrapTrampoline_zero] at hunwrap
      exact hreal0 hunwrap.symm
    by_cases hside : P.isGuest = P.isHostAddress (R.real v.1)
    · rw [record_of_none (request_of_native hside)]
      by_cases hsame : R.real v.1 = load64 w.mem v.1
      · rw [← hsame] at hunwrap
        exact ⟨{}, w, CallbackContext.init_of_native hsame.symm hunwrap hside, hR,
          Extends.refl w ds, fun _ _ _ => rfl, .kept hside hsame.symm hsame.symm rfl⟩
      · obtain ⟨hR', hkeep⟩ := hR.store hL hs (.inr (.inl ⟨horiginal, rfl⟩))
        exact ⟨_, _, CallbackContext.init_of_stub rfl hunwrap hside hsame, hR',
          Extends.refl w ds, hkeep, .unwrapped hside hload0 (Ne.symm hsame)
            (load64_store64 _ _ _) rfl⟩
    · have hrec := record_of_request ds (request_of_foreign hreal0 hside)
      have hroom' := hroom v.2
      rw [hrec] at hroom' ⊢
      rw [update_self] at hroom'
      obtain ⟨r, w₁, halloc, hstub, hR₁, hext, hkeep₁⟩ := hR.alloc hL hk horiginal hroom'
      obtain ⟨hR', hkeep⟩ := hR₁.store hL hs (.inr (.inr ⟨v.2, hstub⟩))
      refine ⟨_, _, CallbackContext.init_of_foreign rfl hunwrap hside halloc, hR', hext, ?_, ?_⟩
      · intro a ha hne
        exact (hkeep a ha hne).trans (hkeep₁ a (.inl ha))
      · refine .wrapped hside hload0 ?_ rfl
        rw [World.store, load64_store64]
        exact hstub

/-! ## A sequence of substitutions -/

/-- The instances a slot is visited with, in their order. -/
def keysAt (vs : List (Word × κ)) (s : Word) : List κ :=
  (vs.filter fun v => v.1 = s).map Prod.snd

omit [DecidableEq κ] in
theorem keysAt_cons_of_ne {vs : List (Word × κ)} (h : v.1 ≠ s) :
    keysAt (v :: vs) s = keysAt vs s := by
  simp [keysAt, h]

omit [DecidableEq κ] in
theorem keysAt_cons {vs : List (Word × κ)} (h : v.1 = s) :
    keysAt (v :: vs) s = v.2 :: keysAt vs s := by
  simp [keysAt, h]

theorem isPrefix_record : ds k <+: R.record P ds v k := by
  cases h : R.request P v.1 with
  | none => rw [record_of_none h]
  | some f =>
      rw [record_of_request _ h]
      by_cases hk : k = v.2
      · subst hk
        rw [update_self]
        exact isPrefix_intern _ f
      · rw [update_of_ne hk]

theorem isPrefix_recordAll {vs : List (Word × κ)} : ds k <+: R.recordAll P ds vs k := by
  induction vs generalizing ds with
  | nil => exact List.prefix_rfl
  | cons v vs ih => exact isPrefix_record.trans ih

theorem recordAll_append {vs vs' : List (Word × κ)} :
    R.recordAll P ds (vs ++ vs') = R.recordAll P (R.recordAll P ds vs) vs' :=
  List.foldl_append

/-- What a sequence of substitutions does to a slot `s` that it visits with the instances
`ks`, and what the contexts of the slot record. -/
structure History (R : Reached κ) (P : Proc κ) (w w' : World κ) (ds' : κ → List Word)
    (ks : List κ) (rs : List Word) (s : Word) : Prop where
  settled : (load64 w.mem s = 0 ∨
      P.isGuest = P.isHostAddress (R.real s) ∧ load64 w.mem s = R.real s) →
    rs = [] ∧ load64 w'.mem s = load64 w.mem s
  native : P.isGuest = P.isHostAddress (R.real s) →
    rs.getLast?.getD (load64 w'.mem s) = load64 w.mem s
  foreign : P.isGuest ≠ P.isHostAddress (R.real s) → load64 w.mem s ≠ 0 →
    ∃ us, List.Forall₂ (fun k u => StubOf w' ds' k (R.real s) u) ks us ∧
      rs = (load64 w.mem s :: us).dropLast ∧
      (load64 w.mem s :: us).getLast? = some (load64 w'.mem s)

omit [DecidableEq κ] in
theorem history_nil {ds' : κ → List Word} : R.History P w w ds' [] [] s where
  settled _ := ⟨rfl, rfl⟩
  native _ := rfl
  foreign _ _ := ⟨[], .nil, rfl, rfl⟩

omit [DecidableEq κ] in
/-- A substitution of the slot comes before the others. -/
theorem History.cons {w₁ : World κ} {ds₁ ds' : κ → List Word} {ks : List κ}
    {ctx : CallbackContext} (hR₁ : R.Ready P O w₁ ds₁) (hext : Extends w₁ ds₁ w' ds')
    (ho : R.Outcome P w w₁ ds₁ v ctx)
    (hh : R.History P w₁ w' ds' ks (records ctxs v.1) v.1) :
    R.History P w w' ds' (v.2 :: ks) (records (ctx :: ctxs) v.1) v.1 := by
  cases ho with
  | null before after hctx =>
      rw [records_cons_of_zero hctx]
      obtain ⟨hrs, hload⟩ := hh.settled (.inl after)
      rw [after] at hload
      refine ⟨fun _ => ⟨hrs, hload.trans before.symm⟩, fun _ => ?_,
        fun _ hne => absurd before hne⟩
      rw [hrs, hload, before]
      rfl
  | kept native before after hctx =>
      rw [records_cons_of_zero hctx]
      obtain ⟨hrs, hload⟩ := hh.settled (.inr ⟨native, after⟩)
      rw [after] at hload
      refine ⟨fun _ => ⟨hrs, hload.trans before.symm⟩, fun _ => ?_,
        fun hforeign _ => absurd native hforeign⟩
      rw [hrs, hload, before]
      rfl
  | unwrapped native before changed after hctx =>
      obtain ⟨hrs, hload⟩ := hh.settled (.inr ⟨native, after⟩)
      rw [records_cons (by rw [hctx]) (by rw [hctx]; exact before), hctx, hrs]
      refine ⟨?_, fun _ => rfl, fun hforeign _ => absurd native hforeign⟩
      rintro (h0 | ⟨-, hsame⟩)
      · exact absurd h0 before
      · exact absurd hsame changed
  | wrapped foreign before after hctx =>
      have hden : Denotes O w₁ ds₁ (load64 w₁.mem v.1) (R.real v.1) := .inr ⟨v.2, after⟩
      have hne : load64 w₁.mem v.1 ≠ 0 := by
        intro h0
        have hunwrap := hR₁.sound.unwrap_eq hden
        rw [h0, unwrapTrampoline_zero] at hunwrap
        exact Originals.ne_zero (hR₁.sound.mem_all_of_denotes hden) hunwrap.symm
      obtain ⟨us, hus, hrs, hlast⟩ := hh.foreign foreign hne
      rw [records_cons (by rw [hctx]) (by rw [hctx]; exact before), hctx]
      refine ⟨?_, fun hnative => absurd hnative foreign, fun _ _ => ?_⟩
      · rintro (h0 | ⟨hnative, -⟩)
        · exact absurd h0 before
        · exact absurd hnative foreign
      · refine ⟨load64 w₁.mem v.1 :: us, .cons (hR₁.sound.stubOf_extends hext after) hus, ?_, ?_⟩
        · rw [hrs, List.dropLast_cons_cons]
        · rw [List.getLast?_cons_cons, hlast]

omit [DecidableEq κ] in
theorem Outcome.p_fp {ds' : κ → List Word} {ctx : CallbackContext}
    (ho : R.Outcome P w w' ds' v ctx) (h0 : ctx.org_fp ≠ 0) : ctx.p_fp = v.1 := by
  cases ho with
  | null _ _ hctx => exact absurd hctx h0
  | kept _ _ _ hctx => exact absurd hctx h0
  | unwrapped _ _ _ _ hctx => rw [hctx]
  | wrapped _ _ _ hctx => rw [hctx]

/-- A sequence of substitutions leaves everything ready, and gives every slot its
history. -/
theorem Ready.initAll (hL : R.Layout P O) {vs : List (Word × κ)} (hR : R.Ready P O w ds)
    (hvs : ∀ v ∈ vs, v.1 ∈ R.slots ∧ v.2 ∈ R.keys)
    (hroom : ∀ k, (R.recordAll P ds vs k).length ≤ (P.handler k).count) :
    ∃ ctxs w', P.initAll w vs = some (ctxs, w') ∧ R.Ready P O w' (R.recordAll P ds vs) ∧
      Extends w ds w' (R.recordAll P ds vs) ∧ Targets R.slots ctxs ∧
      ∀ s ∈ R.slots, R.History P w w' (R.recordAll P ds vs) (keysAt vs s) (records ctxs s) s := by
  induction vs generalizing w ds with
  | nil =>
      exact ⟨[], w, rfl, hR, Extends.refl w ds, fun c hc => absurd hc List.not_mem_nil,
        fun s _ => history_nil⟩
  | cons v vs ih =>
      obtain ⟨hs, hk⟩ := hvs v List.mem_cons_self
      obtain ⟨ctx, w₁, hinit, hR₁, hext₁, hkeep, ho⟩ := hR.visit hL hs hk fun k =>
        Nat.le_trans isPrefix_recordAll.length_le (hroom k)
      obtain ⟨ctxs, w', hall, hR', hext, htargets, hhist⟩ :=
        ih hR₁ (fun v' hv' => hvs v' (List.mem_cons_of_mem v hv')) hroom
      refine ⟨ctx :: ctxs, w', ?_, hR', hext₁.trans hext, ?_, ?_⟩
      · simp [Proc.initAll, hinit, hall]
      · intro c hc h0
        rcases List.mem_cons.mp hc with rfl | hc
        · rw [ho.p_fp h0]
          exact hs
        · exact htargets c hc h0
      · intro s hs'
        by_cases h : v.1 = s
        · subst h
          rw [keysAt_cons rfl]
          exact (hhist v.1 hs').cons hR₁ hext ho
        · have hrecords : records (ctx :: ctxs) s = records ctxs s := by
            by_cases h0 : ctx.org_fp = 0
            · exact records_cons_of_zero h0
            · exact records_cons_of_ne (ho.p_fp h0 ▸ h)
          have hload := hkeep s hs' (Ne.symm h)
          have hh := hhist s hs'
          rw [keysAt_cons_of_ne h, hrecords]
          constructor
          · rw [← hload]
            exact hh.settled
          · rw [← hload]
            exact hh.native
          · rw [← hload]
            exact hh.foreign

end Visit

end Reached

end Lorelei.Trampoline
