import Lorelei.Trampoline.World

/-!
# What a function pointer stands for

A function pointer is an original function or the stub of one.  `unwrapTrampoline`
takes off one level, which is enough because no trampoline ever stands for a
trampoline: in a sound world the tables hold original functions only, and no original
function carries the magic word where a trampoline does.
-/

namespace Lorelei.Trampoline

open ByteMemory Interning Function

/-! ## Original functions -/

/-- The functions that are not stubs, by the side they belong to. -/
structure Originals where
  guest : Set Word
  host : Set Word
  apart : Disjoint guest host
  nonnull : 0 ∉ guest ∪ host

namespace Originals

variable (O : Originals)

def all : Set Word := O.guest ∪ O.host

/-- The functions the receiver can call: the receiver of a guest callback is the host. -/
def native (isGuest : Bool) : Set Word := if isGuest then O.host else O.guest

def Classifies (isHostAddress : Word → Bool) : Prop :=
  (∀ f ∈ O.guest, isHostAddress f = false) ∧ ∀ f ∈ O.host, isHostAddress f = true

/-- Where `unwrapTrampoline` looks for the magic of a pointer. -/
def probe (f : Word) : Word :=
  f - BitVec.ofNat 64 thunkInstrOffset + BitVec.ofNat 64 magicSignOffset

/-- No function starts in these bytes, and they are not looked at as its magic. -/
def Clear (bytes : Set Word) : Prop :=
  ∀ f ∈ O.all, f ∉ bytes ∧ Disjoint (block (probe f) 8) bytes

/-- No function carries the magic. -/
def Unmarked (m : Memory) : Prop := ∀ f ∈ O.all, load64 m (probe f) ≠ kTrampolineMagic

end Originals

variable {κ : Type} {O : Originals} {handler : κ → Handler} {w w' : World κ} {k : κ}
variable {ds ds' : κ → List Word} {isHostAddress : Word → Bool} {isGuest : Bool}
variable {f v : Word} {m m' : Memory}

namespace Originals

theorem ne_zero (hf : f ∈ O.all) : f ≠ 0 :=
  fun h0 => O.nonnull (h0 ▸ hf)

/-- A function that is classified as it should be is foreign to the receiver exactly when
it is not native to it. -/
theorem Classifies.foreign_iff (hclass : O.Classifies isHostAddress) (isGuest : Bool)
    (hf : f ∈ O.all) :
    isGuest ≠ isHostAddress f ↔ f ∉ O.native isGuest := by
  rcases hf with hf | hf
  · have hnot : f ∉ O.host := Set.disjoint_left.mp O.apart hf
    rw [hclass.1 f hf]
    cases isGuest <;> simp [native, hf, hnot]
  · have hnot : f ∉ O.guest := Set.disjoint_right.mp O.apart hf
    rw [hclass.2 f hf]
    cases isGuest <;> simp [native, hf, hnot]

theorem Clear.mono {s t : Set Word} (h : O.Clear s) (hsub : t ⊆ s) : O.Clear t :=
  fun f hf => ⟨fun hft => (h f hf).1 (hsub hft), (h f hf).2.mono_right hsub⟩

/-- What is written to clear bytes changes no code. -/
theorem Clear.agree {s : Set Word} (h : O.Clear s) (hm : ∀ x ∉ s, m' x = m x) :
    ∀ f ∈ O.all, ∀ x ∈ block (probe f) 8, m' x = m x :=
  fun f hf x hx => hm x fun hxs => Set.disjoint_left.mp (h f hf).2 hx hxs

theorem Unmarked.congr (h : O.Unmarked m)
    (hm : ∀ f ∈ O.all, ∀ x ∈ block (probe f) 8, m' x = m x) : O.Unmarked m' := by
  intro f hf
  rw [load64_congr (hm f hf)]
  exact h f hf

end Originals

/-- An unmarked function stands for itself. -/
theorem unwrapTrampoline_of_unmarked (h : load64 m (Originals.probe f) ≠ kTrampolineMagic) :
    unwrapTrampoline m f = f := by
  rw [unwrapTrampoline]
  by_cases h0 : f = 0
  · rw [if_pos h0]
  · rw [if_neg h0]
    exact if_neg h

@[simp] theorem unwrapTrampoline_zero : unwrapTrampoline m 0 = 0 := if_pos rfl

/-! ## Sound worlds -/

/-- The tables hold original functions, and lie where no original function is. -/
structure Sound (O : Originals) (handler : κ → Handler) (w : World κ) (ds : κ → List Word) :
    Prop where
  holds : w.Holds handler ds
  originals : ∀ k, ∀ a ∈ ds k, a ∈ O.all
  clear : ∀ k, w.trampoline k ≠ 0 → O.Clear (w.tableBlock handler k)
  unmarked : O.Unmarked w.mem

/-- The pointer is the stub of the function in the table of `k`. -/
def StubOf (w : World κ) (ds : κ → List Word) (k : κ) (f v : Word) : Prop :=
  f ∈ ds k ∧ v = stub (w.trampoline k) ((ds k).idxOf f)

/-- The pointer stands for the function: it is the function or one of its stubs. -/
def Denotes (O : Originals) (w : World κ) (ds : κ → List Word) (v f : Word) : Prop :=
  (f ∈ O.all ∧ v = f) ∨ ∃ k, StubOf w ds k f v

/-- Tables only grow, and stay where they are. -/
def Extends (w : World κ) (ds : κ → List Word) (w' : World κ) (ds' : κ → List Word) : Prop :=
  ∀ k, ds k <+: ds' k ∧ (w.trampoline k ≠ 0 → w'.trampoline k = w.trampoline k)

theorem Extends.refl (w : World κ) (ds : κ → List Word) : Extends w ds w ds :=
  fun _ => ⟨List.prefix_rfl, fun _ => rfl⟩

theorem Extends.trans {w'' : World κ} {ds'' : κ → List Word} (h : Extends w ds w' ds')
    (h' : Extends w' ds' w'' ds'') : Extends w ds w'' ds'' := by
  intro k
  refine ⟨(h k).1.trans (h' k).1, fun hk => ?_⟩
  have hstay := (h k).2 hk
  exact ((h' k).2 (hstay ▸ hk)).trans hstay

namespace Sound

/-- A stub of a function stays one. -/
theorem stubOf_extends (hs : Sound O handler w ds) (hext : Extends w ds w' ds')
    (h : StubOf w ds k f v) : StubOf w' ds' k f v := by
  obtain ⟨hmem, hv⟩ := h
  obtain ⟨hgrow, hstay⟩ := hext k
  refine ⟨hgrow.mem hmem, ?_⟩
  rw [hv, idxOf_eq_of_isPrefix hgrow hmem, hstay (hs.holds.trampoline_ne_zero hmem)]

theorem denotes_extends (hs : Sound O handler w ds) (hext : Extends w ds w' ds')
    (h : Denotes O w ds v f) : Denotes O w' ds' v f := by
  rcases h with h | ⟨k, h⟩
  · exact .inl h
  · exact .inr ⟨k, hs.stubOf_extends hext h⟩

theorem mem_all_of_denotes (hs : Sound O handler w ds) (h : Denotes O w ds v f) : f ∈ O.all := by
  rcases h with ⟨hf, -⟩ | ⟨k, hmem, -⟩
  · exact hf
  · exact hs.originals k f hmem

/-- One level of unwrapping leads to the function. -/
theorem unwrap_eq (hs : Sound O handler w ds) (h : Denotes O w ds v f) :
    unwrapTrampoline w.mem v = f := by
  rcases h with ⟨hf, rfl⟩ | ⟨k, hmem, rfl⟩
  · exact unwrapTrampoline_of_unmarked (hs.unmarked _ hf)
  · exact hs.holds.unwrap_stub hmem

/-- A stub lies in its table. -/
theorem mem_tableBlock_of_stubOf (hs : Sound O handler w ds) (h : StubOf w ds k f v) :
    v ∈ w.tableBlock handler k := by
  obtain ⟨hmem, rfl⟩ := h
  exact hs.holds.stub_mem_tableBlock (hs.holds.trampoline_ne_zero hmem)
    (hs.holds.savedFunction_idxOf hmem).1

/-- No stub is an original function. -/
theorem notMem_all_of_stubOf (hs : Sound O handler w ds) (h : StubOf w ds k f v) :
    v ∉ O.all := fun hv =>
  (hs.clear k (hs.holds.trampoline_ne_zero h.1) v hv).1 (hs.mem_tableBlock_of_stubOf h)

/-- Code that changes neither the tables nor the code of the functions. -/
theorem other (hs : Sound O handler w ds)
    (htables : ∀ k, w.trampoline k ≠ 0 → ∀ x ∈ w.tableBlock handler k, m' x = w.mem x)
    (hcode : ∀ f ∈ O.all, ∀ x ∈ block (Originals.probe f) 8, m' x = w.mem x) :
    Sound O handler { w with mem := m' } ds where
  holds := hs.holds.congr rfl htables
  originals := hs.originals
  clear := hs.clear
  unmarked := hs.unmarked.congr hcode

/-- Writing a slot that is in no table. -/
theorem store (hs : Sound O handler w ds) {slot : Word} (hclear : O.Clear (block slot 8))
    (huntouched : w.Untouched handler (block slot 8)) :
    Sound O handler (w.store slot v) ds :=
  hs.other (fun k hk _ hx => store64_of_notMem fun hmem =>
      Set.disjoint_left.mp (huntouched k hk) hmem hx)
    (hclear.agree fun _ hx => store64_of_notMem hx)

/-- An allocation for an original function. -/
theorem alloc [DecidableEq κ] (hs : Sound O handler w ds) {mapping : Mapping (handler k).count}
    (hfresh : w.Fresh handler k mapping)
    (hnewClear : O.Clear (block mapping.table mapping.size)) (hf : f ∈ O.all)
    (hroom : (intern (ds k) f).length ≤ (handler k).count) :
    ∃ v w', World.alloc handler k mapping w f = some (v, w') ∧
      StubOf w' (update ds k (intern (ds k) f)) k f v ∧
      Sound O handler w' (update ds k (intern (ds k) f)) ∧
      Extends w ds w' (update ds k (intern (ds k) f)) ∧
      w'.trampoline = update w.trampoline k ((w.state k).tableFor mapping) ∧
      ∀ x ∉ (w.state k).reach mapping, w'.mem x = w.mem x := by
  obtain ⟨w', halloc, hnonnull, htramp, hholds, hframe⟩ :=
    World.alloc_spec hs.holds hfresh (Originals.ne_zero hf) hroom
  have hreach : O.Clear ((w.state k).reach mapping) := by
    rw [State.reach]
    by_cases hnull : (w.state k).trampoline = 0
    · rw [if_pos hnull]
      exact hnewClear
    · rw [if_neg hnull]
      exact hs.clear k hnull
  refine ⟨_, w', halloc, ⟨?_, ?_⟩, ⟨hholds, ?_, ?_, ?_⟩, ?_, htramp, hframe⟩
  · rw [update_self]
    exact mem_intern.mpr (.inr rfl)
  · rw [update_self, idxOf_intern]
  · intro k' a ha
    by_cases hk : k' = k
    · subst hk
      rw [update_self] at ha
      rcases mem_intern.mp ha with ha | rfl
      · exact hs.originals _ a ha
      · exact hf
    · rw [update_of_ne hk] at ha
      exact hs.originals k' a ha
  · intro k' hk'
    rcases World.tableBlock_update htramp hk' with ⟨hk, hblock⟩ | ⟨-, -, hsub⟩
    · rw [hblock]
      exact hs.clear k' hk
    · exact hnewClear.mono hsub
  · exact hs.unmarked.congr (hreach.agree hframe)
  · intro k'
    refine ⟨?_, World.trampoline_update htramp⟩
    by_cases hk : k' = k
    · subst hk
      rw [update_self]
      exact isPrefix_intern _ f
    · rw [update_of_ne hk]

end Sound

/-! ## One function on each side -/

def twoFunctions : Originals where
  guest := {0x501000}
  host := {0x601000}
  apart := by simp
  nonnull := by simp

theorem clear_twoFunctions {a : Word} {n : Nat} (h : a.toNat + n ≤ 0x501000) :
    twoFunctions.Clear (block a n) := by
  rintro f (rfl | rfl)
  all_goals
    refine ⟨fun hmem => ?_, (block_disjoint_of_le ?_ ?_).symm⟩
    · rw [mem_block] at hmem
      bv_omega
    · exact Nat.le_trans h (by decide)
    · decide

end Lorelei.Trampoline
