import Lorelei.Trampoline.Callback

/-!
# Function pointers that cross the boundary

A run is any sequence of crossings, each a `CallbackContext::init` in one of the two
directions and on one of the tables, with other code in between.

Whatever is in circulation is an original function or the stub of one, so every pointer
leads back to its function in one step.  The magic word has to be telling for that;
`not_crossings_delivered` is what happens when an original function carries it.
-/

namespace Lorelei.Trampoline

open ByteMemory Interning Function

variable {κ : Type}

/-! ## Runs -/

/-- A crossing: the pointer before and after, the function it stands for, and the callback
the table was asked for, if it was. -/
structure Crossing (κ : Type) where
  isGuest : Bool
  key : κ
  org : Word
  fp : Word
  handed : Word
  asked : Option Word

/-- What a crossing finds: where its slot and, if needed, its new table are. -/
structure Site (O : Originals) (handler : κ → Handler) (w : World κ) (k : κ) where
  slot : Word
  isHostAddress : Word → Bool
  mapping : Mapping (handler k).count
  classifies : O.Classifies isHostAddress
  clear : O.Clear (block slot 8)
  untouched : w.Untouched handler (block slot 8)
  apart : Disjoint (block slot 8) (block mapping.table mapping.size)
  fresh : w.Fresh handler k mapping
  newClear : O.Clear (block mapping.table mapping.size)

/-- The pointer is an original function, or was handed out by an earlier crossing of
the function. -/
def Comes (O : Originals) (es : List (Crossing κ)) (fp org : Word) : Prop :=
  (org ∈ O.all ∧ fp = org) ∨ ∃ e ∈ es, e.handed = fp ∧ e.org = org

/-- The sequences of crossings and the worlds they lead to.  Other code may run at any
time; it changes neither the tables nor the code of the functions. -/
inductive Run [DecidableEq κ] (O : Originals) (handler : κ → Handler) (w₀ : World κ) :
    List (Crossing κ) → World κ → Prop
  | start : Run O handler w₀ [] w₀
  | other {es : List (Crossing κ)} {w : World κ} {m' : Memory} (run : Run O handler w₀ es w)
      (tables : ∀ k, w.trampoline k ≠ 0 → ∀ x ∈ w.tableBlock handler k, m' x = w.mem x)
      (code : ∀ f ∈ O.all, ∀ x ∈ block (Originals.probe f) 8, m' x = w.mem x) :
      Run O handler w₀ es { w with mem := m' }
  | cross {es : List (Crossing κ)} {w w' : World κ} {ctx : CallbackContext}
      (run : Run O handler w₀ es w) (e : Crossing κ) (site : Site O handler w e.key)
      (before : load64 w.mem site.slot = e.fp) (comes : Comes O es e.fp e.org)
      (asks : e.asked = if e.isGuest ≠ site.isHostAddress (unwrapTrampoline w.mem e.fp) then
        some (unwrapTrampoline w.mem e.fp) else none)
      (init : CallbackContext.init e.isGuest site.isHostAddress
        (World.alloc handler e.key site.mapping) w site.slot = some (ctx, w'))
      (after : load64 w'.mem site.slot = e.handed) :
      Run O handler w₀ (es ++ [e]) w'

/-- The callbacks the table of `k` was asked for. -/
def asked [DecidableEq κ] (es : List (Crossing κ)) (k : κ) : List Word :=
  es.filterMap fun e => if e.key = k then e.asked else none

/-- The receiver got the function itself if it can call it, and a stub for it if not. -/
structure Delivered (O : Originals) (handler : κ → Handler) (w : World κ) (e : Crossing κ) :
    Prop where
  native : e.org ∈ O.native e.isGuest → e.handed = e.org
  foreign : e.org ∉ O.native e.isGuest → ∃ i < (handler e.key).count,
    e.handed = stub (w.trampoline e.key) i ∧
      savedFunction w.mem (trampolineAt (w.trampoline e.key) i) = e.org

/-- No trampoline stands for a trampoline. -/
def Unnested (handler : κ → Handler) (w : World κ) : Prop :=
  ∀ k k' i j, w.trampoline k ≠ 0 → w.trampoline k' ≠ 0 →
    i < (handler k).count → j < (handler k').count →
      savedFunction w.mem (trampolineAt (w.trampoline k) i) ≠ stub (w.trampoline k') j

variable {O : Originals} {handler : κ → Handler} {w w' w₀ : World κ} {es : List (Crossing κ)}
variable {e : Crossing κ} {ctx : CallbackContext} {f fp : Word} {k : κ} {m' : Memory}

/-! ## The callbacks a table was asked for -/

section Asked

variable [DecidableEq κ]

theorem asked_append_of_none (h : e.asked = none) : asked (es ++ [e]) k = asked es k := by
  simp [asked, List.filterMap_append, h]

theorem asked_append_of_some (h : e.asked = some f) :
    asked (es ++ [e]) k = if e.key = k then asked es k ++ [f] else asked es k := by
  by_cases hk : e.key = k <;> simp [asked, List.filterMap_append, h, hk]

theorem asked_isPrefix (es : List (Crossing κ)) (e : Crossing κ) (k : κ) :
    asked es k <+: asked (es ++ [e]) k := by
  rw [asked, asked, List.filterMap_append]
  exact List.prefix_append _ _

/-- The callbacks of every table, in the order of their slots. -/
def tables (es : List (Crossing κ)) (k : κ) : List Word := internAll [] (asked es k)

theorem tables_append_of_none (es : List (Crossing κ)) (h : e.asked = none) :
    tables (es ++ [e]) = tables es := by
  funext k
  rw [tables, asked_append_of_none h, tables]

theorem tables_append_of_some (es : List (Crossing κ)) (h : e.asked = some f) :
    tables (es ++ [e]) = update (tables es) e.key (intern (tables es e.key) f) := by
  funext k
  by_cases hk : k = e.key
  · subst hk
    rw [update_self, tables, asked_append_of_some h, if_pos rfl, internAll_append]
    rfl
  · rw [update_of_ne hk, tables, asked_append_of_some h, if_neg (Ne.symm hk), tables]

theorem tables_isPrefix (es : List (Crossing κ)) (e : Crossing κ) (k : κ) :
    tables es k <+: tables (es ++ [e]) k := by
  obtain ⟨rest, hrest⟩ := asked_isPrefix es e k
  rw [tables, tables, ← hrest, internAll_append]
  exact isPrefix_internAll _ rest

theorem length_tables : (tables es k).length = (asked es k).toFinset.card :=
  length_internAll _

end Asked

/-! ## The invariant -/

/-- The pointer that was handed over, by the state of the tables. -/
structure Handed [DecidableEq κ] (O : Originals) (w : World κ) (es : List (Crossing κ))
    (e : Crossing κ) : Prop where
  original : e.org ∈ O.all
  native : e.org ∈ O.native e.isGuest → e.handed = e.org
  foreign : e.org ∉ O.native e.isGuest → StubOf w (tables es) e.key e.org e.handed

/-- All that is in circulation is an original function or the stub of one. -/
structure Circulates [DecidableEq κ] (O : Originals) (handler : κ → Handler) (w : World κ)
    (es : List (Crossing κ)) : Prop where
  sound : Sound O handler w (tables es)
  handed : ∀ e ∈ es, Handed O w es e

variable [DecidableEq κ]

theorem Handed.denotes (h : Handed O w es e) : Denotes O w (tables es) e.handed e.org := by
  by_cases hnat : e.org ∈ O.native e.isGuest
  · exact .inl ⟨h.original, h.native hnat⟩
  · exact .inr ⟨e.key, h.foreign hnat⟩

theorem Circulates.denotes {org : Word} (hinv : Circulates O handler w es)
    (hcomes : Comes O es fp org) : Denotes O w (tables es) fp org := by
  rcases hcomes with h | ⟨e, he, rfl, rfl⟩
  · exact .inl h
  · exact (hinv.handed e he).denotes

theorem circulates_start (hunasked : ∀ k, w.trampoline k = 0) (hunmarked : O.Unmarked w.mem) :
    Circulates O handler w [] where
  sound := {
    holds := {
      table := fun k => ⟨fun _ => rfl, fun h0 => absurd (hunasked k) h0,
        fun h0 => absurd (hunasked k) h0⟩
      apart := fun _ h0 => absurd (hunasked _) h0 }
    originals := fun _ _ ha => absurd ha List.not_mem_nil
    clear := fun k h0 => absurd (hunasked k) h0
    unmarked := hunmarked }
  handed _ he := absurd he List.not_mem_nil

/-- The pointers handed over so far stay good. -/
theorem Circulates.handed_extends (hinv : Circulates O handler w es)
    (hext : Extends w (tables es) w' (tables (es ++ [e]))) {e' : Crossing κ} (he' : e' ∈ es) :
    Handed O w' (es ++ [e]) e' where
  original := (hinv.handed e' he').original
  native := (hinv.handed e' he').native
  foreign hnot := hinv.sound.stubOf_extends hext ((hinv.handed e' he').foreign hnot)

/-- A crossing extends the tables and hands over a pointer. -/
theorem Circulates.append (hinv : Circulates O handler w es)
    (hsound : Sound O handler w' (tables (es ++ [e])))
    (hext : Extends w (tables es) w' (tables (es ++ [e]))) (he : Handed O w' (es ++ [e]) e) :
    Circulates O handler w' (es ++ [e]) where
  sound := hsound
  handed := by
    intro e' he'
    rcases List.mem_append.mp he' with he' | he'
    · exact hinv.handed_extends hext he'
    · rw [List.mem_singleton.mp he']
      exact he

/-- One crossing keeps the invariant. -/
theorem Circulates.cross (hinv : Circulates O handler w es) (site : Site O handler w e.key)
    (hbefore : load64 w.mem site.slot = e.fp) (hcomes : Comes O es e.fp e.org)
    (hasks : e.asked = if e.isGuest ≠ site.isHostAddress (unwrapTrampoline w.mem e.fp) then
      some (unwrapTrampoline w.mem e.fp) else none)
    (hinit : CallbackContext.init e.isGuest site.isHostAddress
      (World.alloc handler e.key site.mapping) w site.slot = some (ctx, w'))
    (hafter : load64 w'.mem site.slot = e.handed)
    (hroom : (tables (es ++ [e]) e.key).length ≤ (handler e.key).count) :
    Circulates O handler w' (es ++ [e]) := by
  have hdenotes := hinv.denotes hcomes
  have horiginal : e.org ∈ O.all := hinv.sound.mem_all_of_denotes hdenotes
  have hreal : unwrapTrampoline w.mem e.fp = e.org := hinv.sound.unwrap_eq hdenotes
  have hforeign := site.classifies.foreign_iff e.isGuest horiginal
  have hnative (heq : e.isGuest = site.isHostAddress e.org) : e.org ∈ O.native e.isGuest := by
    by_contra hnot
    exact hforeign.mpr hnot heq
  rw [hreal] at hasks
  rcases CallbackContext.init_cases hinit with
    ⟨hne, r, w₁, halloc, -, rfl⟩ | ⟨heq, -, -, rfl⟩ | ⟨heq, hsame, -, rfl⟩
  · -- foreign to the receiver: the slot gets a stub
    rw [hbefore, hreal] at hne halloc
    rw [if_pos hne] at hasks
    rw [World.store, load64_store64] at hafter
    have htables := tables_append_of_some es hasks
    rw [htables, update_self] at hroom
    obtain ⟨r', w₂, halloc', hstub, hsound, hext, htramp, -⟩ :=
      hinv.sound.alloc site.fresh site.newClear horiginal hroom
    obtain ⟨rfl, rfl⟩ : r' = r ∧ w₂ = w₁ := by
      simpa using halloc'.symm.trans halloc
    rw [← htables] at hstub hsound hext
    refine hinv.append (hsound.store site.clear (site.untouched.update site.apart htramp)) hext
      ⟨horiginal, fun hnat => absurd hnat (hforeign.mp hne), fun _ => ?_⟩
    exact hafter ▸ hstub
  · -- the stub of a function that is native to the receiver: the slot gets the function
    rw [hbefore, hreal] at heq hafter ⊢
    rw [if_neg (not_not.mpr heq)] at hasks
    rw [World.store, load64_store64] at hafter
    have htables := tables_append_of_none es hasks
    refine hinv.append (htables ▸ hinv.sound.store site.clear site.untouched)
      (htables ▸ Extends.refl _ _)
      ⟨horiginal, fun _ => hafter.symm, fun hnot => absurd (hnative heq) hnot⟩
  · -- native to the receiver already
    rw [hbefore, hreal] at heq hsame
    rw [if_neg (not_not.mpr heq)] at hasks
    have htables := tables_append_of_none es hasks
    refine hinv.append (htables ▸ hinv.sound) (htables ▸ Extends.refl _ _)
      ⟨horiginal, fun _ => hafter.symm.trans (hbefore.trans hsame.symm),
        fun hnot => absurd (hnative heq) hnot⟩

/-- Every run keeps the invariant, as long as its tables have room. -/
theorem Run.circulates (hrun : Run O handler w₀ es w) (hunasked : ∀ k, w₀.trampoline k = 0)
    (hunmarked : O.Unmarked w₀.mem)
    (hroom : ∀ k, (asked es k).toFinset.card ≤ (handler k).count) :
    Circulates O handler w es := by
  induction hrun with
  | start => exact circulates_start hunasked hunmarked
  | other _ htables hcode ih =>
      exact ⟨(ih hroom).sound.other htables hcode, fun e he => ⟨((ih hroom).handed e he).original,
        ((ih hroom).handed e he).native, ((ih hroom).handed e he).foreign⟩⟩
  | cross run e site hbefore hcomes hasks hinit hafter ih =>
      have hroom' (k : κ) : (tables _ k).length ≤ (handler k).count :=
        Nat.le_trans (Nat.le_of_eq length_tables) (hroom k)
      refine (ih fun k => ?_).cross site hbefore hcomes hasks hinit hafter (hroom' e.key)
      rw [← length_tables]
      exact Nat.le_trans (tables_isPrefix _ e k).length_le (hroom' k)

/-! ## What the receivers get -/

theorem Circulates.unnested (hinv : Circulates O handler w es) : Unnested handler w := by
  intro k k' i j hk hk' hi hj hnest
  have hholds := hinv.sound.holds
  have hsaved : savedFunction w.mem (trampolineAt (w.trampoline k) i) = (tables es k).getD i 0 :=
    ((hholds.table k).occupied hk).saved i hi
  rw [hnest, List.getD_eq_getElem?_getD] at hsaved
  have hmem := hholds.stub_mem_tableBlock hk' hj
  cases hget : (tables es k)[i]? with
  | none =>
      rw [hget] at hsaved
      have hfits := (hholds.table k').fits hk'
      exact stub_ne_zero (Nat.le_trans (Nat.add_le_add_left (tableSize_mono hj) _) hfits) hsaved
  | some a =>
      rw [hget] at hsaved
      have ha : a ∈ tables es k := List.mem_of_getElem? hget
      rw [hsaved] at hmem
      exact (hinv.sound.clear k' hk' a (hinv.sound.originals k a ha)).1 hmem

theorem Circulates.delivered (hinv : Circulates O handler w es) (he : e ∈ es) :
    Delivered O handler w e := by
  have hh := hinv.handed e he
  refine ⟨hh.native, fun hnot => ?_⟩
  obtain ⟨hmem, hhanded⟩ := hh.foreign hnot
  obtain ⟨hidx, hsaved⟩ := hinv.sound.holds.savedFunction_idxOf hmem
  exact ⟨_, hidx, hhanded, hsaved⟩

/-- **Crossings deliver.**  In every run in which no table is asked for more callbacks
than it has trampolines, and whose original functions do not carry the magic, no
trampoline ever stands for a trampoline, and every receiver gets the original function
or a stub for it, whichever it can call. -/
theorem crossings_delivered (hrun : Run O handler w₀ es w)
    (hunasked : ∀ k, w₀.trampoline k = 0) (hunmarked : O.Unmarked w₀.mem)
    (hroom : ∀ k, (asked es k).toFinset.card ≤ (handler k).count) :
    Unnested handler w ∧ ∀ e ∈ es, Delivered O handler w e := by
  have hinv := hrun.circulates hunasked hunmarked hroom
  exact ⟨hinv.unnested, fun e he => hinv.delivered he⟩

/-! ## A callback that comes back -/

section Example

/-- The slot at `0x7000` holds the guest's function, and no table has been created. -/
def guestCallback : World Unit where
  mem := store64 (fun _ => 0) 0x7000 0x501000
  trampoline _ := 0

theorem unmarked_guestCallback : twoFunctions.Unmarked guestCallback.mem := by
  rintro f (rfl | rfl)
  all_goals
    rw [guestCallback, load64_store64_of_disjoint
      (block_disjoint_of_le (by decide) (by decide)).symm]
    simp only [load64]
    decide

/-- The place of a crossing through the slot at `0x7000`. -/
def exampleSite (w : World Unit) (hw : w.trampoline () = 0 ∨ w.trampoline () = onePage.table) :
    Site twoFunctions (fun _ => defaultHandler) w () where
  slot := 0x7000
  isHostAddress a := a == 0x601000
  mapping := onePage
  classifies := by
    constructor
    · rintro f rfl
      decide
    · rintro f rfl
      decide
  clear := clear_twoFunctions (by decide)
  untouched := by
    rintro ⟨⟩ hk
    rw [World.tableBlock, hw.resolve_left hk]
    exact block_disjoint_of_le (by decide) (by decide)
  apart := block_disjoint_of_le (by decide) (by decide)
  fresh := by
    rintro h0 ⟨⟩ hk
    exact absurd h0 hk
  newClear := clear_twoFunctions (by decide)

/-- The guest's function is passed to the host. -/
def there : Crossing Unit :=
  ⟨true, (), 0x501000, 0x501000, stub onePage.table 0, some 0x501000⟩

/-- What the host got is passed to the guest. -/
def back : Crossing Unit :=
  ⟨false, (), 0x501000, stub onePage.table 0, 0x501000, none⟩

theorem run_there : ∃ w : World Unit, w.trampoline () = onePage.table ∧
    load64 w.mem 0x7000 = stub onePage.table 0 ∧
    Run twoFunctions (fun _ => defaultHandler) guestCallback [there] w := by
  have hinv : Circulates twoFunctions (fun _ => defaultHandler) guestCallback [] :=
    circulates_start (fun _ => rfl) unmarked_guestCallback
  have hfp : load64 guestCallback.mem 0x7000 = 0x501000 := load64_store64 _ _ _
  have hreal : unwrapTrampoline guestCallback.mem 0x501000 = 0x501000 :=
    unwrapTrampoline_of_unmarked (unmarked_guestCallback _ (.inl rfl))
  let site := exampleSite guestCallback (.inl rfl)
  obtain ⟨w, halloc, -, htramp, -, -⟩ := World.alloc_spec hinv.sound.holds site.fresh
    (by decide : (0x501000 : Word) ≠ 0) (by decide)
  have htable : w.trampoline () = onePage.table := by
    rw [htramp]
    rfl
  have hstub : World.alloc (fun _ => defaultHandler) () site.mapping guestCallback 0x501000 =
      some (stub onePage.table 0, w) := by
    rw [halloc, htable]
    rfl
  have hinit : CallbackContext.init there.isGuest site.isHostAddress
      (World.alloc (fun _ => defaultHandler) () site.mapping) guestCallback site.slot =
        some (⟨0x7000, 0x501000⟩, w.store 0x7000 (stub onePage.table 0)) :=
    CallbackContext.init_of_foreign hfp hreal (by decide) hstub
  exact ⟨w.store 0x7000 (stub onePage.table 0), htable, load64_store64 _ _ _,
    .cross .start there site hfp
    (.inl ⟨.inl rfl, rfl⟩) (by rw [show there.fp = 0x501000 from rfl, hreal]; rfl) hinit
    (load64_store64 _ _ _)⟩

/-- A guest callback is passed to the host, and comes back as it was. -/
theorem crossings_delivered_roundTrip : ∃ w : World Unit,
    Run twoFunctions (fun _ => defaultHandler) guestCallback [there, back] w ∧
      Unnested (fun _ => defaultHandler) w ∧
      ∀ e ∈ [there, back], Delivered twoFunctions (fun _ => defaultHandler) w e := by
  obtain ⟨w, htable, hslot, hrun⟩ := run_there
  have hinv := hrun.circulates (fun _ => rfl) unmarked_guestCallback fun _ =>
    (by decide : (asked [there] ()).toFinset.card ≤ 16)
  have hreal : unwrapTrampoline w.mem (stub onePage.table 0) = 0x501000 :=
    hinv.sound.unwrap_eq (hinv.denotes (.inr ⟨there, List.mem_singleton_self _, rfl, rfl⟩))
  let site := exampleSite w (.inr htable)
  have hinit : CallbackContext.init back.isGuest site.isHostAddress
      (World.alloc (fun _ => defaultHandler) () site.mapping) w site.slot =
        some (⟨0x7000, stub onePage.table 0⟩, w.store 0x7000 0x501000) :=
    CallbackContext.init_of_stub hslot hreal rfl (by decide)
  have hrun' : Run twoFunctions (fun _ => defaultHandler) guestCallback [there, back]
      (w.store 0x7000 0x501000) :=
    .cross hrun back site hslot (.inr ⟨there, List.mem_singleton_self _, rfl, rfl⟩)
      (by rw [show back.fp = stub onePage.table 0 from rfl, hreal]; rfl) hinit
      (load64_store64 _ _ _)
  exact ⟨_, hrun', crossings_delivered hrun' (fun _ => rfl) unmarked_guestCallback fun _ =>
    (by decide : (asked [there, back] ()).toFinset.card ≤ 16)⟩

end Example

/-! ## A function that carries the magic -/

/-- A host function at `0x601000` whose code has the magic word 40 bytes behind its start,
and the word `0x602000` before it. -/
def markedFunction : Originals where
  guest := ∅
  host := {0x601000}
  apart := by simp
  nonnull := by simp

def markedWorld : World Unit where
  mem := store64 (store64 (store64 (fun _ => 0) 0x601028 kTrampolineMagic) 0x600FF8 0x602000)
    0x7000 0x601000
  trampoline _ := 0

theorem unwrap_markedWorld : unwrapTrampoline markedWorld.mem 0x601000 = 0x602000 := by
  have hmagic : load64 markedWorld.mem 0x601028 = kTrampolineMagic := by
    rw [markedWorld, load64_store64_of_disjoint
      (block_disjoint_of_le (by decide) (by decide)).symm,
      load64_store64_of_disjoint (block_disjoint_of_le (by decide) (by decide)).symm,
      load64_store64]
  have hsaved : load64 markedWorld.mem 0x600FF8 = 0x602000 := by
    rw [markedWorld, load64_store64_of_disjoint
      (block_disjoint_of_le (by decide) (by decide)).symm, load64_store64]
  rw [unwrapTrampoline, if_neg (by decide)]
  exact (if_pos hmagic).trans hsaved

/-- Without the condition on the magic the receiver of a native function can get
something else. -/
theorem not_crossings_delivered :
    ¬ ∀ (O : Originals) (handler : Unit → Handler) (w₀ w : World Unit)
        (es : List (Crossing Unit)), Run O handler w₀ es w → (∀ k, w₀.trampoline k = 0) →
        (∀ k, (asked es k).toFinset.card ≤ (handler k).count) →
        Unnested handler w ∧ ∀ e ∈ es, Delivered O handler w e := by
  intro hall
  have hclear {a : Word} {n : Nat} (h : a.toNat + n ≤ 0x601000) :
      markedFunction.Clear (block a n) := by
    rintro f (hf | rfl)
    · exact absurd hf (Set.notMem_empty f)
    · refine ⟨fun hmem => ?_, (block_disjoint_of_le (Nat.le_trans h (by decide)) (by decide)).symm⟩
      rw [mem_block] at hmem
      bv_omega
  let site : Site markedFunction (fun _ => defaultHandler) markedWorld () := {
    slot := 0x7000
    isHostAddress := fun _ => true
    mapping := onePage
    classifies := ⟨fun f hf => absurd hf (Set.notMem_empty f), fun _ _ => rfl⟩
    clear := hclear (by decide)
    untouched := fun _ h0 => absurd rfl h0
    apart := block_disjoint_of_le (by decide) (by decide)
    fresh := fun _ _ h0 => absurd rfl h0
    newClear := hclear (by decide) }
  let e : Crossing Unit := ⟨true, (), 0x601000, 0x601000, 0x602000, none⟩
  have hslot : load64 markedWorld.mem 0x7000 = 0x601000 := load64_store64 _ _ _
  have hinit : CallbackContext.init e.isGuest site.isHostAddress
      (World.alloc (fun _ => defaultHandler) () site.mapping) markedWorld site.slot =
        some (⟨0x7000, 0x601000⟩, markedWorld.store 0x7000 0x602000) :=
    CallbackContext.init_of_stub hslot unwrap_markedWorld rfl (by decide)
  have hrun : Run markedFunction (fun _ => defaultHandler) markedWorld ([] ++ [e])
      (markedWorld.store 0x7000 0x602000) :=
    .cross .start e site hslot (.inl ⟨.inr rfl, rfl⟩)
      (by rw [show e.fp = 0x601000 from rfl, unwrap_markedWorld]; rfl) hinit
      (load64_store64 _ _ _)
  have hdelivered := (hall _ _ _ _ _ hrun (fun _ => rfl) (fun _ => Nat.zero_le _)).2 e
    (List.mem_singleton_self e)
  exact absurd (hdelivered.native rfl) (by decide)

end Lorelei.Trampoline
