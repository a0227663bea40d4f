import Lorelei.Trampoline.Substitution

/-!
# Which calls leave their slots as they were

The two walks of a call, over a tree of any shape, come down to the sequence of the
slots they reach.  A slot is restored exactly when it is reached once, is null, holds a
callback native to the receiver, or already held the stub that the last but one visit
puts there (`undone_iff`).
-/

namespace Lorelei.Trampoline

open ByteMemory Interning Function

variable {κ : Type}

namespace Reached

variable {R : Reached κ} {P : Proc κ} {O : Originals} {w w' : World κ}
variable {ds ds' : κ → List Word} {s : Word} {ks : List κ} {rs : List Word} {k : κ} {f u v : Word}

/-! ## One slot -/

/-- The last visit but one. -/
def lastButOne (ks : List κ) : Option κ := ks.dropLast.getLast?

/-- The pointer in the slot is a stub of the instance. -/
def HoldsStub (P : Proc κ) (w : World κ) (s : Word) (k : κ) : Prop :=
  w.trampoline k ≠ 0 ∧ ∃ i < (P.handler k).count, load64 w.mem s = stub (w.trampoline k) i

/-- The slot, visited with the instances `ks`, is one that finishing its contexts
restores. -/
def Recovers (P : Proc κ) (w : World κ) (ks : List κ) (s : Word) : Prop :=
  load64 w.mem s = 0 ∨
  P.isGuest = P.isHostAddress (unwrapTrampoline w.mem (load64 w.mem s)) ∨
  ∀ k ∈ lastButOne ks, HoldsStub P w s k

theorem forall₂_getLast? {α β : Type} {r : α → β → Prop} {as : List α} {bs : List β}
    (h : List.Forall₂ r as bs) :
    (as.getLast? = none ∧ bs.getLast? = none) ∨
      ∃ a b, as.getLast? = some a ∧ bs.getLast? = some b ∧ r a b := by
  induction h with
  | nil => exact .inl ⟨rfl, rfl⟩
  | @cons a b as bs hab _ ih =>
      right
      rw [List.getLast?_cons, List.getLast?_cons]
      rcases ih with ⟨ha, hb⟩ | ⟨a', b', ha, hb, hab'⟩
      · rw [ha, hb]
        exact ⟨a, b, rfl, rfl, hab⟩
      · rw [ha, hb]
        exact ⟨a', b', rfl, rfl, hab'⟩

/-- A stub of one function in one table is one pointer. -/
theorem StubOf.unique (h : StubOf w ds k f u) (h' : StubOf w ds k f v) : u = v :=
  h.2.trans h'.2.symm

/-- A pointer to a stub of the instance is the stub of the function it stands for. -/
theorem stubOf_of_holdsStub (hs : Sound O P.handler w ds)
    (hden : Denotes O w ds (load64 w.mem s) f) (h : HoldsStub P w s k) :
    StubOf w ds k f (load64 w.mem s) := by
  obtain ⟨hk, i, hi, hload⟩ := h
  have hocc := (hs.holds.table k).occupied hk
  have hunwrap : unwrapTrampoline w.mem (load64 w.mem s) = (ds k).getD i 0 := by
    rw [hload]
    exact hocc.unwrap_stub hi ((hs.holds.table k).fits hk)
  rw [hs.unwrap_eq hden, List.getD_eq_getElem?_getD] at hunwrap
  cases hget : (ds k)[i]? with
  | none =>
      rw [hget] at hunwrap
      exact absurd hunwrap (Originals.ne_zero (hs.mem_all_of_denotes hden))
  | some a =>
      rw [hget] at hunwrap
      obtain ⟨hlt, hi⟩ := List.getElem?_eq_some_iff.mp hget
      have hidx : (ds k).idxOf f = i := by
        rw [show f = (ds k)[i] from hunwrap.trans hi.symm]
        exact hocc.nodup.idxOf_getElem i hlt
      refine ⟨?_, ?_⟩
      · rw [show f = a from hunwrap]
        exact List.mem_of_getElem? hget
      · rw [hidx]
        exact hload

/-- A pointer that becomes a stub of an instance is one already. -/
theorem holdsStub_of_stubOf (hs : Sound O P.handler w ds) (hs' : Sound O P.handler w' ds')
    (hext : Extends w ds w' ds') (hden : Denotes O w ds (load64 w.mem s) f)
    (h : StubOf w' ds' k f (load64 w.mem s)) : HoldsStub P w s k := by
  rcases hden with ⟨hf, hload⟩ | ⟨k₀, hstub⟩
  · exact absurd (hload ▸ hf) (hs'.notMem_all_of_stubOf h)
  · have hstub' := hs.stubOf_extends hext hstub
    have hk : k₀ = k := by
      by_contra hne
      have happ := hs'.holds.apart hne (hs'.holds.trampoline_ne_zero hstub'.1)
        (hs'.holds.trampoline_ne_zero h.1)
      exact Set.disjoint_left.mp happ (hs'.mem_tableBlock_of_stubOf hstub')
        (hs'.mem_tableBlock_of_stubOf h)
    subst hk
    exact ⟨hs.holds.trampoline_ne_zero hstub.1, _, (hs.holds.savedFunction_idxOf hstub.1).1,
      hstub.2⟩

/-- What the contexts of a slot restore is what it held exactly if it recovers. -/
theorem History.restored_iff (hR : R.Ready P O w ds) (hmem : R.mem = w.mem)
    (hR' : R.Ready P O w' ds') (hext : Extends w ds w' ds') (hs : s ∈ R.slots)
    (hh : R.History P w w' ds' ks rs s) :
    rs.getLast?.getD (load64 w'.mem s) = load64 w.mem s ↔ Recovers P w ks s := by
  have hreal : R.real s = unwrapTrampoline w.mem (load64 w.mem s) := by rw [real, hmem]
  by_cases h0 : load64 w.mem s = 0
  · obtain ⟨hrs, hload⟩ := hh.settled (.inl h0)
    rw [hrs, hload]
    exact iff_of_true rfl (.inl h0)
  by_cases hside : P.isGuest = P.isHostAddress (R.real s)
  · exact iff_of_true (hh.native hside) (.inr (.inl (hreal ▸ hside)))
  have hden : Denotes O w ds (load64 w.mem s) (R.real s) :=
    (hR.denotes s hs).resolve_left fun hnull => h0 hnull.2
  obtain ⟨us, hus, hrs, hlast⟩ := hh.foreign hside h0
  have hrecovers : Recovers P w ks s ↔ ∀ k ∈ lastButOne ks, HoldsStub P w s k := by
    constructor
    · rintro (hnull | hnative | hstub)
      · exact absurd hnull h0
      · exact absurd (hreal ▸ hnative) hside
      · exact hstub
    · exact fun hstub => .inr (.inr hstub)
  have hrestored : rs.getLast?.getD (load64 w'.mem s) =
      us.dropLast.getLast?.getD (load64 w.mem s) := by
    cases us with
    | nil =>
        rw [List.getLast?_singleton] at hlast
        rw [hrs, ← Option.some.inj hlast]
        rfl
    | cons u us =>
        rw [hrs, List.dropLast_cons_cons, List.getLast?_cons]
        rfl
  have hbut : List.Forall₂ (fun k u => StubOf w' ds' k (R.real s) u) ks.dropLast us.dropLast := by
    rw [List.dropLast_eq_take, List.dropLast_eq_take, hus.length_eq]
    exact List.forall₂_take _ hus
  rw [hrecovers, hrestored, lastButOne]
  rcases forall₂_getLast? hbut with ⟨hks, hus'⟩ | ⟨k, u, hks, hus', hstub⟩
  · rw [hks, hus']
    exact iff_of_true rfl fun k hk => nomatch hk
  · rw [hks, hus']
    constructor
    · rintro hu k' ⟨⟩
      have hu' : u = load64 w.mem s := hu
      exact holdsStub_of_stubOf hR.sound hR'.sound hext hden (hu' ▸ hstub)
    · intro hstubs
      have hold := stubOf_of_holdsStub hR.sound hden (hstubs k rfl)
      exact StubOf.unique hstub (hR.sound.stubOf_extends hext hold)

/-! ## Walks -/

theorem enter_congr {m m' : Memory} {reach : Reach} {member : Word}
    (h : reach = .byPointer → load64 m' member = load64 m member) :
    enter m' reach member = enter m reach member := by
  cases reach with
  | byValue => rfl
  | byPointer => rw [enter, enter, h rfl]

section Walks

variable {vs vs' : List (Word × κ)} {ctxs ctxs' : List CallbackContext}

/-- A walk visits these slots with these instances, and follows these pointers. -/
structure Covers (R : Reached κ) (vs : List (Word × κ)) (ps : List Word) : Prop where
  visits : ∀ v ∈ vs, v.1 ∈ R.slots ∧ v.2 ∈ R.keys
  pointers : ∀ a ∈ ps, a ∈ R.pointers

theorem Covers.left {ps ps' : List Word} (h : R.Covers (vs ++ vs') (ps ++ ps')) :
    R.Covers vs ps where
  visits v hv := h.visits v (List.mem_append_left _ hv)
  pointers a ha := h.pointers a (List.mem_append_left _ ha)

theorem Covers.right {ps ps' : List Word} (h : R.Covers (vs ++ vs') (ps ++ ps')) :
    R.Covers vs' ps' where
  visits v hv := h.visits v (List.mem_append_right _ hv)
  pointers a ha := h.pointers a (List.mem_append_right _ ha)

theorem Covers.dropPointers {ps ps' : List Word} (h : R.Covers vs (ps ++ ps')) :
    R.Covers vs ps' where
  visits := h.visits
  pointers a ha := h.pointers a (List.mem_append_right _ ha)

variable [DecidableEq κ]

theorem initAll_append {w₁ : World κ} (h : P.initAll w vs = some (ctxs, w₁))
    (h' : P.initAll w₁ vs' = some (ctxs', w')) :
    P.initAll w (vs ++ vs') = some (ctxs ++ ctxs', w') := by
  induction vs generalizing w ctxs with
  | nil =>
      cases h
      exact h'
  | cons v vs ih =>
      rw [Proc.initAll] at h
      cases hinit : P.init w v with
      | none => simp [hinit] at h
      | some r =>
          cases hall : P.initAll r.2 vs with
          | none => simp [hinit, hall] at h
          | some r' =>
              have hr : r.1 :: r'.1 = ctxs ∧ r'.2 = w₁ := by simpa [hinit, hall] using h
              obtain ⟨rfl, rfl⟩ := hr
              rw [List.cons_append, Proc.initAll, hinit]
              simp [ih hall]

theorem length_initAll (h : P.initAll w vs = some (ctxs, w')) : ctxs.length = vs.length := by
  induction vs generalizing w ctxs with
  | nil =>
      cases h
      rfl
  | cons v vs ih =>
      rw [Proc.initAll] at h
      cases hinit : P.init w v with
      | none => simp [hinit] at h
      | some r =>
          cases hall : P.initAll r.2 vs with
          | none => simp [hinit, hall] at h
          | some r' =>
              have hr : r.1 :: r'.1 = ctxs ∧ r'.2 = w' := by simpa [hinit, hall] using h
              obtain ⟨rfl, rfl⟩ := hr
              simp [ih hall]

/-- A walk before the call is the sequence of its substitutions, and the walk after it
finishes their contexts in the same order: whatever follows the contexts of the node
among `ctxs` is not looked at. -/
structure Walk (R : Reached κ) (P : Proc κ) (w : World κ) (vs : List (Word × κ)) (size : Nat)
    (runInit : Option (List CallbackContext × World κ))
    (runFini : World κ → List CallbackContext → World κ) : Prop where
  run : ∃ ctxs ctxs' w', runInit = some (ctxs, w') ∧ P.initAll w vs = some (ctxs', w') ∧
    ctxs.length = size ∧
    ∀ (w₂ : World κ) (rest : List CallbackContext),
      (∀ a ∈ R.pointers, load64 w₂.mem a = load64 R.mem a) →
      runFini w₂ (ctxs ++ rest) = finiAll w₂ ctxs'

/-- Room for a walk is room for its first part, and after that for the rest. -/
theorem room_left (h : ∀ k, (R.recordAll P ds (vs ++ vs') k).length ≤ (P.handler k).count) :
    ∀ k, (R.recordAll P ds vs k).length ≤ (P.handler k).count := by
  intro k
  have hk := h k
  rw [recordAll_append] at hk
  exact Nat.le_trans isPrefix_recordAll.length_le hk

theorem room_right (h : ∀ k, (R.recordAll P ds (vs ++ vs') k).length ≤ (P.handler k).count) :
    ∀ k, (R.recordAll P (R.recordAll P ds vs) vs' k).length ≤ (P.handler k).count := by
  intro k
  rw [← recordAll_append]
  exact h k

mutual

theorem walk_tree (hL : R.Layout P O) : ∀ (t : CallbackTree κ) (val : Word) {w : World κ}
    {ds : κ → List Word}, R.Ready P O w ds → R.Covers (t.visits R.mem val) (t.pointers R.mem val) →
    (∀ k, (R.recordAll P ds (t.visits R.mem val) k).length ≤ (P.handler k).count) →
    R.Walk P w (t.visits R.mem val) t.size (t.runInit P w val)
      fun w₂ ctxs => t.runFini w₂ val ctxs
  | .node reach children callbacks, val, w, ds, hR, hcovers, hroom => by
      rw [CallbackTree.visits] at hcovers hroom ⊢
      rw [CallbackTree.pointers, ← List.append_nil (Children.pointers _ _ _)] at hcovers
      obtain ⟨ctxs₁, ctxs₁', w₁, hrun₁, hall₁, hlen₁, hfini₁⟩ :=
        (walk_children hL children val hR hcovers.left (room_left hroom)).run
      obtain ⟨_, _, hall₁', hR₁, -, htargets₁, -⟩ :=
        hR.initAll hL hcovers.left.visits (room_left hroom)
      cases hall₁.symm.trans hall₁'
      obtain ⟨ctxs₂, w', hall₂, -, -, -, -⟩ :=
        hR₁.initAll hL hcovers.right.visits (room_right hroom)
      have hlen₂ : ctxs₂.length = callbacks.length := by
        rw [length_initAll hall₂, slotsAt, List.length_map]
      refine ⟨ctxs₁ ++ ctxs₂, ctxs₁' ++ ctxs₂, w', ?_, initAll_append hall₁ hall₂, ?_, ?_⟩
      · simp [CallbackTree.runInit, hrun₁, hall₂]
      · rw [List.length_append, hlen₁, hlen₂, CallbackTree.size]
      · intro w₂ rest hpointers
        simp only [CallbackTree.runFini]
        rw [List.append_assoc, hfini₁ w₂ _ hpointers, ← hlen₁, List.drop_left, ← hlen₂,
          List.take_left, finiAll_append]

theorem walk_children (hL : R.Layout P O) : ∀ (cs : Children κ) (val : Word) {w : World κ}
    {ds : κ → List Word}, R.Ready P O w ds →
    R.Covers (cs.visits R.mem val) (cs.pointers R.mem val) →
    (∀ k, (R.recordAll P ds (cs.visits R.mem val) k).length ≤ (P.handler k).count) →
    R.Walk P w (cs.visits R.mem val) cs.size (cs.runInit P w val)
      fun w₂ ctxs => cs.runFini w₂ val ctxs
  | .nil, val, w, ds, hR, hcovers, hroom =>
      ⟨[], [], w, rfl, rfl, rfl, fun _ _ _ => rfl⟩
  | .cons offset child rest, val, w, ds, hR, hcovers, hroom => by
      rw [Children.visits] at hcovers hroom ⊢
      rw [Children.pointers, List.append_assoc] at hcovers
      have hpointer {m : Memory} (hm : ∀ a ∈ R.pointers, load64 m a = load64 R.mem a) :
          enter m child.reach (val + offset) = enter R.mem child.reach (val + offset) :=
        enter_congr fun hreach => hm _ (hcovers.pointers _ (by simp [hreach]))
      have hcovers' := hcovers.dropPointers
      have hchild : R.Walk P w
          (match enter R.mem child.reach (val + offset) with
            | some p => child.visits R.mem p
            | none => []) child.size
          (match enter R.mem child.reach (val + offset) with
            | some p => child.runInit P w p
            | none => some (List.replicate child.size {}, w))
          fun w₂ ctxs => match enter R.mem child.reach (val + offset) with
            | some p => child.runFini w₂ p ctxs
            | none => w₂ := by
        have hleft := hcovers'.left
        have hroomLeft := room_left hroom
        cases henter : enter R.mem child.reach (val + offset) with
        | none =>
            -- the contexts of a node behind a null pointer are left as they are declared
            exact ⟨_, [], w, rfl, rfl, List.length_replicate, fun _ _ _ => rfl⟩
        | some p =>
            rw [henter] at hleft hroomLeft
            exact walk_tree hL child p hR hleft hroomLeft
      obtain ⟨ctxs₁, ctxs₁', w₁, hrun₁, hall₁, hlen₁, hfini₁⟩ := hchild.run
      obtain ⟨_, _, hall₁', hR₁, -, htargets₁, -⟩ :=
        hR.initAll hL hcovers'.left.visits (room_left hroom)
      cases hall₁.symm.trans hall₁'
      obtain ⟨ctxs₂, ctxs₂', w', hrun₂, hall₂, hlen₂, hfini₂⟩ :=
        (walk_children hL rest val hR₁ hcovers'.right (room_right hroom)).run
      refine ⟨ctxs₁ ++ ctxs₂, ctxs₁' ++ ctxs₂', w', ?_, initAll_append hall₁ hall₂, ?_, ?_⟩
      · rw [Children.runInit, hpointer hR.pointers]
        cases henter : enter R.mem child.reach (val + offset) with
        | none =>
            simp only [henter] at hrun₁
            cases hrun₁
            simp [hrun₂]
        | some p =>
            simp only [henter] at hrun₁
            simp [hrun₁, hrun₂]
      · rw [List.length_append, hlen₁, hlen₂, Children.size]
      · intro w₂ rest' hpointers
        have hpointers' : ∀ a ∈ R.pointers,
            load64 (finiAll w₂ ctxs₁').mem a = load64 R.mem a := fun a ha =>
          (load64_finiAll_of_disjoint (hL.pointers_apart a ha) htargets₁).trans (hpointers a ha)
        have hfirst := hfini₁ w₂ (ctxs₂ ++ rest') hpointers
        have hsecond := hfini₂ _ rest' hpointers'
        rw [← finiAll_append] at hsecond
        rw [Children.runFini, hpointer hpointers, List.append_assoc, ← hlen₁, List.drop_left,
          ← hsecond]
        exact congrArg (Children.runFini · _ _ _) hfirst

end

theorem length_recordAll_le : (R.recordAll P ds vs k).length ≤ (ds k).length + vs.length := by
  induction vs generalizing ds with
  | nil => exact Nat.le_refl _
  | cons v vs ih =>
      have hone : (R.record P ds v k).length ≤ (ds k).length + 1 := by
        cases h : R.request P v.1 with
        | none =>
            rw [record_of_none h]
            exact Nat.le_succ _
        | some f =>
            rw [record_of_request _ h]
            by_cases hk : k = v.2
            · subst hk
              rw [update_self]
              exact length_intern_le
            · rw [update_of_ne hk]
              exact Nat.le_succ _
      calc
        (R.recordAll P ds (v :: vs) k).length ≤ (R.record P ds v k).length + vs.length := ih
        _ ≤ (ds k).length + (v :: vs).length := by
          rw [List.length_cons]
          omega

end Walks

end Reached

/-! ## The whole call -/

variable {P : Proc κ} {O : Originals} {t : CallbackTree κ} {val : Word}
variable {w : World κ} {ds : κ → List Word}

namespace CallbackTree

/-- What the walks over a tree reach. -/
def reached (t : CallbackTree κ) (val : Word) (m : Memory) : Reached κ where
  mem := m
  slots := {s | ∃ k, (s, k) ∈ t.visits m val}
  pointers := {a | a ∈ t.pointers m val}
  keys := {k | ∃ s, (s, k) ∈ t.visits m val}

theorem covers (t : CallbackTree κ) (val : Word) (m : Memory) :
    (t.reached val m).Covers (t.visits m val) (t.pointers m val) where
  visits v hv := ⟨⟨v.2, hv⟩, ⟨v.1, hv⟩⟩
  pointers _ ha := ha

variable [DecidableEq κ]

/-- The paths of the tree live in the memory: the slots hold function pointers, nothing
that is reached overlaps, and the tables have room for the callbacks. -/
structure Live (P : Proc κ) (O : Originals) (t : CallbackTree κ) (val : Word) (w : World κ)
    (ds : κ → List Word) : Prop where
  layout : (t.reached val w.mem).Layout P O
  sound : Sound O P.handler w ds
  untouched : ∀ a ∈ (t.reached val w.mem).slots ∪ (t.reached val w.mem).pointers,
    w.Untouched P.handler (block a 8)
  fresh : ∀ k ∈ (t.reached val w.mem).keys, w.Fresh P.handler k (P.place k)
  denotes : ∀ s ∈ (t.reached val w.mem).slots,
    load64 w.mem s = 0 ∨ ∃ f, Denotes O w ds (load64 w.mem s) f
  room : ∀ k, ((t.reached val w.mem).recordAll P ds (t.visits w.mem val) k).length ≤
    (P.handler k).count

theorem Live.ready (h : t.Live P O val w ds) : (t.reached val w.mem).Ready P O w ds where
  sound := h.sound
  untouched := h.untouched
  fresh := h.fresh
  pointers _ _ := rfl
  denotes s hs := by
    rcases h.denotes s hs with h0 | ⟨f, hden⟩
    · refine .inl ⟨?_, h0⟩
      rw [Reached.real, reached, h0, unwrapTrampoline_zero]
    · right
      rw [Reached.real, reached, h.sound.unwrap_eq hden]
      exact hden

/-- What a call leaves in a slot, whatever its callee does. -/
theorem Live.leaves (h : t.Live P O val w ds) :
    ∃ ctxs w₁, t.runInit P w val = some (ctxs, w₁) ∧
      ∀ v ∈ t.visits w.mem val, ∃ left : Word,
        (left = load64 w.mem v.1 ↔
          Reached.Recovers P w (Reached.keysAt (t.visits w.mem val) v.1) v.1) ∧
        ∀ w₂ : World κ,
          (∀ v ∈ t.visits w.mem val, load64 w₂.mem v.1 = load64 w₁.mem v.1) →
          (∀ a ∈ t.pointers w.mem val, load64 w₂.mem a = load64 w₁.mem a) →
          load64 (t.runFini w₂ val ctxs).mem v.1 = left := by
  have hR := h.ready
  obtain ⟨ctxs, ctxs', w₁, hrun, hall, -, hfini⟩ :=
    (Reached.walk_tree h.layout t val hR (t.covers val w.mem) h.room).run
  obtain ⟨_, _, hall', hR₁, hext, htargets, hhist⟩ :=
    hR.initAll h.layout (t.covers val w.mem).visits h.room
  cases hall.symm.trans hall'
  refine ⟨ctxs, w₁, hrun, fun v hv => ?_⟩
  have hs : v.1 ∈ (t.reached val w.mem).slots := ⟨v.2, hv⟩
  refine ⟨_, (hhist v.1 hs).restored_iff hR rfl hR₁ hext hs, fun w₂ hslots hpointers => ?_⟩
  have hagree : ∀ a ∈ (t.reached val w.mem).pointers, load64 w₂.mem a = load64 w.mem a :=
    fun a ha => (hpointers a ha).trans (hR₁.pointers a ha)
  rw [← List.append_nil ctxs, hfini w₂ [] hagree, load64_finiAll h.layout.slots_apart hs htargets,
    hslots v hv]

/-- **When a call is undone.**  A call leaves every slot as it was exactly when every slot
that is reached recovers. -/
theorem undone_iff (h : t.Live P O val w ds) :
    t.Undone P val w ↔ ∀ v ∈ t.visits w.mem val,
      Reached.Recovers P w (Reached.keysAt (t.visits w.mem val) v.1) v.1 := by
  obtain ⟨ctxs, w₁, hrun, hleaves⟩ := h.leaves
  constructor
  · rintro ⟨ctxs', w₁', hrun', hundone⟩ v hv
    cases hrun.symm.trans hrun'
    obtain ⟨left, hleft, hleaves⟩ := hleaves v hv
    have hkept := hundone w₁ (fun _ _ => rfl) (fun _ _ => rfl) v hv
    exact hleft.mp ((hleaves w₁ (fun _ _ => rfl) fun _ _ => rfl).symm.trans hkept)
  · intro hrecovers
    refine ⟨ctxs, w₁, hrun, fun w₂ hslots hpointers v hv => ?_⟩
    obtain ⟨left, hleft, hleaves⟩ := hleaves v hv
    exact (hleaves w₂ hslots hpointers).trans (hleft.mpr (hrecovers v hv))

/-! ## A struct that two arguments point to -/

section Example

/-- The struct at `0x7000` holds a callback of the guest, and the arguments at `0x8000` and
`0x8008` point to it. -/
def sharedWorld : World Unit where
  mem := store64 (store64 (store64 (fun _ => 0) 0x7000 0x501000) 0x8000 0x7000) 0x8008 0x7000
  trampoline _ := 0

/-- A call from the guest to the host. -/
def hostProc : Proc Unit where
  isGuest := true
  isHostAddress a := a == 0x601000
  handler _ := defaultHandler
  place _ := onePage

/-- An argument that is a pointer to a struct whose first member is a callback. -/
def structPointer : CallbackTree Unit := .node .byPointer .nil [⟨0, ()⟩]

def oneArgument : CallbackTree Unit := .node .byValue (.cons 0x8000 structPointer .nil) []

def twoArguments : CallbackTree Unit :=
  .node .byValue (.cons 0x8000 structPointer (.cons 0x8008 structPointer .nil)) []

theorem load64_sharedWorld : load64 sharedWorld.mem 0x7000 = 0x501000 ∧
    load64 sharedWorld.mem 0x8000 = 0x7000 ∧ load64 sharedWorld.mem 0x8008 = 0x7000 := by
  have h₁ : Disjoint (block (0x7000 : Word) 8) (block 0x8008 8) :=
    block_disjoint_of_le (by decide) (by decide)
  have h₂ : Disjoint (block (0x7000 : Word) 8) (block 0x8000 8) :=
    block_disjoint_of_le (by decide) (by decide)
  have h₃ : Disjoint (block (0x8000 : Word) 8) (block 0x8008 8) :=
    block_disjoint_of_le (by decide) (by decide)
  refine ⟨?_, ?_, load64_store64 _ _ _⟩
  · rw [sharedWorld, load64_store64_of_disjoint h₁, load64_store64_of_disjoint h₂, load64_store64]
  · rw [sharedWorld, load64_store64_of_disjoint h₃, load64_store64]

theorem enter_sharedWorld : enter sharedWorld.mem .byPointer 0x8000#64 = some 0x7000#64 ∧
    enter sharedWorld.mem .byPointer 0x8008#64 = some 0x7000#64 := by
  obtain ⟨-, h, h'⟩ := load64_sharedWorld
  exact ⟨(congrArg (fun p => if p = 0 then none else some p) h),
    (congrArg (fun p => if p = 0 then none else some p) h')⟩

theorem visits_oneArgument : oneArgument.visits sharedWorld.mem 0 = [(0x7000, ())] := by
  simp [oneArgument, structPointer, visits, Children.visits, reach, slotsAt, enter_sharedWorld]

theorem visits_twoArguments :
    twoArguments.visits sharedWorld.mem 0 = [(0x7000, ()), (0x7000, ())] := by
  simp [twoArguments, structPointer, visits, Children.visits, reach, slotsAt, enter_sharedWorld]

theorem unmarked_sharedWorld : twoFunctions.Unmarked sharedWorld.mem := by
  have hlow {a b : Word} (h : a.toNat + 8 ≤ 0x501000) (hb : 0x501000 ≤ b.toNat)
      (hfit : b.toNat + 8 ≤ 2 ^ 64) : Disjoint (block b 8) (block a 8) :=
    (block_disjoint_of_le (Nat.le_trans h hb) hfit).symm
  rintro f (rfl | rfl)
  all_goals
    rw [sharedWorld, load64_store64_of_disjoint (hlow (by decide) (by decide) (by decide)),
      load64_store64_of_disjoint (hlow (by decide) (by decide) (by decide)),
      load64_store64_of_disjoint (hlow (by decide) (by decide) (by decide))]
    simp only [load64]
    decide

theorem live_sharedWorld {t : CallbackTree Unit} {n : Nat} (hn : n ≤ 16)
    (hvisits : t.visits sharedWorld.mem 0 = List.replicate n (0x7000, ()))
    (hpointers : ∀ a ∈ t.pointers sharedWorld.mem 0, a = 0x8000 ∨ a = 0x8008) :
    t.Live hostProc twoFunctions 0 sharedWorld fun _ => [] := by
  have hslot : ∀ s ∈ (t.reached 0 sharedWorld.mem).slots, s = 0x7000 := by
    rintro s ⟨k, hk⟩
    rw [hvisits] at hk
    exact congrArg Prod.fst (List.eq_of_mem_replicate hk)
  have hword : ∀ a ∈ (t.reached 0 sharedWorld.mem).slots ∪ (t.reached 0 sharedWorld.mem).pointers,
      a.toNat + 8 ≤ 0x10000 := by
    rintro a (ha | ha)
    · rw [hslot a ha]
      decide
    · rcases hpointers a ha with rfl | rfl <;> decide
  constructor
  · constructor
    · intro s hs s' hs' hne
      exact absurd ((hslot s hs).trans (hslot s' hs').symm) hne
    · intro a ha s hs
      rw [hslot s hs]
      rcases hpointers a ha with rfl | rfl
      · exact (block_disjoint_of_le (by decide) (by decide)).symm
      · exact (block_disjoint_of_le (by decide) (by decide)).symm
    · intro k _ k' _ hne
      exact absurd (Subsingleton.elim k k') hne
    · intro a ha k _
      exact block_disjoint_of_le (hword a ha)
        (by decide : onePage.table.toNat + onePage.size ≤ 2 ^ 64)
    · intro k _
      exact clear_twoFunctions (by decide : onePage.table.toNat + onePage.size ≤ 0x501000)
    · intro s hs
      rw [hslot s hs]
      exact clear_twoFunctions (by decide)
  · constructor
    · constructor
      · intro k
        exact ⟨fun _ => rfl, fun h0 => absurd rfl h0, fun h0 => absurd rfl h0⟩
      · intro k k' _ h0
        exact absurd rfl h0
    · intro k a ha
      exact absurd ha List.not_mem_nil
    · intro k h0
      exact absurd rfl h0
    · exact unmarked_sharedWorld
  · intro a _ k h0
    exact absurd rfl h0
  · intro k _ _ k' h0
    exact absurd rfl h0
  · intro s hs
    rw [hslot s hs, load64_sharedWorld.1]
    exact .inr ⟨0x501000, .inl ⟨.inl rfl, rfl⟩⟩
  · intro k
    refine Nat.le_trans Reached.length_recordAll_le ?_
    rw [hvisits, List.length_replicate, List.length_nil, Nat.zero_add]
    exact hn

theorem live_oneArgument : oneArgument.Live hostProc twoFunctions 0 sharedWorld fun _ => [] := by
  refine live_sharedWorld (n := 1) (by decide) visits_oneArgument fun a ha => ?_
  have ha' : a = 0x8000 := by
    simpa [oneArgument, structPointer, pointers, Children.pointers, reach, enter_sharedWorld]
      using ha
  exact .inl ha'

theorem live_twoArguments : twoArguments.Live hostProc twoFunctions 0 sharedWorld fun _ => [] := by
  refine live_sharedWorld (n := 2) (by decide) visits_twoArguments fun a ha => ?_
  simpa [twoArguments, structPointer, pointers, Children.pointers, reach, enter_sharedWorld]
    using ha

/-- A callback behind one pointer argument is restored. -/
theorem undone_oneArgument : oneArgument.Undone hostProc 0 sharedWorld := by
  refine (undone_iff live_oneArgument).mpr fun v hv => .inr (.inr ?_)
  rw [visits_oneArgument] at hv ⊢
  rw [List.mem_singleton.mp hv]
  rintro k ⟨⟩

/-- A callback behind two pointer arguments is left wrapped. -/
theorem not_undone_twoArguments :
    twoArguments.Live hostProc twoFunctions 0 sharedWorld (fun _ => []) ∧
      ¬ twoArguments.Undone hostProc 0 sharedWorld := by
  refine ⟨live_twoArguments, ?_⟩
  obtain ⟨ctxs, w₁, hrun, hleaves⟩ := live_twoArguments.leaves
  rintro ⟨ctxs', w₁', hrun', hundone⟩
  cases hrun.symm.trans hrun'
  have hv : ((0x7000, ()) : Word × Unit) ∈ twoArguments.visits sharedWorld.mem 0 := by
    rw [visits_twoArguments]
    exact List.mem_cons_self
  obtain ⟨left, hleft, hleaves⟩ := hleaves _ hv
  have hkept := hundone w₁ (fun _ _ => rfl) (fun _ _ => rfl) _ hv
  have hrecovers := hleft.mp ((hleaves w₁ (fun _ _ => rfl) fun _ _ => rfl).symm.trans hkept)
  have hreal : unwrapTrampoline sharedWorld.mem 0x501000 = 0x501000 :=
    unwrapTrampoline_of_unmarked (unmarked_sharedWorld _ (.inl rfl))
  rw [Reached.Recovers, load64_sharedWorld.1, hreal, visits_twoArguments] at hrecovers
  rcases hrecovers with hnull | hnative | hstub
  · exact absurd hnull (by decide)
  · exact absurd hnative (by decide)
  · exact absurd rfl (hstub () rfl).1

end Example

end CallbackTree

end Lorelei.Trampoline
