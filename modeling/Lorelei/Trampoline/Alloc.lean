import Lorelei.Trampoline.Table

/-!
# What a sequence of allocations hands out

One call of `allocCallbackTrampoline` on a table that holds the callbacks `ds` interns
its callback, and so does a sequence of calls: the stub of a callback is the stub of
its position among the distinct callbacks.  The table keeps its promises up to its
`Count` distinct callbacks and not beyond (`allocCorrect_iff`).
-/

namespace Lorelei.Trampoline

open ByteMemory Interning

variable {h : Handler} {mapping : Mapping h.count} {s : State} {m m' : Memory}
variable {table input x : Word} {i n count : Nat} {ds inputs : List Word}

/-! ## One call -/

theorem idxOf_lt_of_room (hroom : (intern ds input).length ≤ count) : ds.idxOf input < count := by
  have hmem : input ∈ intern ds input := mem_intern.mpr (.inr rfl)
  have hlt : (intern ds input).idxOf input < (intern ds input).length :=
    List.idxOf_lt_length_of_mem hmem
  rw [idxOf_intern] at hlt
  exact Nat.lt_of_lt_of_le hlt hroom

theorem trampolineAt_zero_add :
    trampolineAt table 0 + BitVec.ofNat 64 (i * trampolineSize) = trampolineAt table i := by
  rw [trampolineAt, trampolineAt, BitVec.add_assoc, ← BitVec.ofNat_add, tableSize, Nat.zero_mul,
    Nat.add_zero, tableSize]

/-- The callbacks after a new one took the first free trampoline. -/
theorem getD_intern_of_notMem (hinput : input ∉ ds) :
    (intern ds input).getD i 0 = if i = ds.length then input else ds.getD i 0 := by
  rw [intern_of_notMem hinput, List.getD_eq_getElem?_getD, List.getD_eq_getElem?_getD]
  rcases Nat.lt_trichotomy i ds.length with hlt | rfl | hgt
  · rw [if_neg (Nat.ne_of_lt hlt), List.getElem?_append_left hlt]
  · rw [if_pos rfl, List.getElem?_concat_length]
    rfl
  · rw [if_neg (Nat.ne_of_gt hgt), List.getElem?_eq_none (Nat.le_of_lt hgt),
      List.getElem?_eq_none (by rw [List.length_append]; exact hgt)]

/-- Filling the first free trampoline. -/
theorem Occupied.store (hocc : Occupied m table count ds) (hfit : tableSize count ≤ 2 ^ 64)
    (hne : input ≠ 0) (hinput : input ∉ ds) (hroom : ds.length < count) :
    Occupied (store64 m (trampolineAt table ds.length) input) table count (intern ds input) := by
  have hother {i : Nat} (hi : i < count) (hil : i ≠ ds.length) :
      ∀ x ∈ block (trampolineAt table i) trampolineSize,
        store64 m (trampolineAt table ds.length) input x = m x := by
    intro x hx
    apply store64_of_notMem
    intro hmem
    have hmem' : x ∈ block (trampolineAt table ds.length) trampolineSize :=
      Nat.lt_trans (mem_block.mp hmem) (by decide)
    rcases Nat.lt_or_gt_of_ne hil with hlt | hgt
    · exact Set.disjoint_left.mp (block_trampolineAt_disjoint hlt
        (Nat.le_trans (tableSize_mono hroom) hfit)) hx hmem'
    · exact Set.disjoint_left.mp (block_trampolineAt_disjoint hgt
        (Nat.le_trans (tableSize_mono hi) hfit)) hmem' hx
  constructor
  · exact nodup_intern hocc.nodup
  · rintro hzero
    rcases mem_intern.mp hzero with hzero | hzero
    · exact hocc.nonnull hzero
    · exact hne hzero.symm
  · rw [intern_of_notMem hinput, List.length_append]
    exact hroom
  · intro i hi
    rw [getD_intern_of_notMem hinput]
    by_cases hil : i = ds.length
    · subst hil
      rw [if_pos rfl, savedFunction, load64_store64]
    · rw [if_neg hil, savedFunction_congr (hother hi hil)]
      exact hocc.saved i hi
  · intro i hi
    by_cases hil : i = ds.length
    · subst hil
      rw [magicSign, load64_store64_of_disjoint (block_saved_disjoint_magic _).symm]
      exact hocc.magic _ hi
    · rw [magicSign_congr (hother hi hil)]
      exact hocc.magic i hi

/-- The loop interns its callback, and changes nothing but the table. -/
theorem Occupied.findTrampoline (hocc : Occupied m table count ds)
    (hfit : tableSize count ≤ 2 ^ 64) (hne : input ≠ 0)
    (hroom : (intern ds input).length ≤ count) (hn : count ≤ n) :
    ∃ m', findTrampoline input m n (trampolineAt table 0) =
        some (stub table (ds.idxOf input), m') ∧
      Occupied m' table count (intern ds input) ∧
      ∀ x ∉ block table (tableSize count), m' x = m x := by
  have hidx : ds.idxOf input < count := idxOf_lt_of_room hroom
  have hfind := findTrampoline_eq (m := m) (n := n) (t := trampolineAt table 0) hocc.nonnull
    (Nat.lt_of_lt_of_le hidx hn) fun i hi => by
      rw [trampolineAt_zero_add]
      exact hocc.saved i (Nat.lt_of_le_of_lt hi hidx)
  simp only [trampolineAt_zero_add] at hfind
  refine ⟨_, hfind, ?_⟩
  by_cases hinput : input ∈ ds
  · rw [if_pos hinput, intern_of_mem hinput]
    exact ⟨hocc, fun x _ => rfl⟩
  · rw [if_neg hinput, List.idxOf_eq_length hinput]
    rw [List.idxOf_eq_length hinput] at hidx
    refine ⟨hocc.store hfit hne hinput hidx, fun x hx => ?_⟩
    apply store64_of_notMem
    exact fun hmem => hx (block_trampolineAt_subset hidx hfit
      (Nat.lt_trans (mem_block.mp hmem) (by decide)))

/-- The handler has not been asked yet, or its table holds the callbacks `ds`. -/
structure State.Holds (s : State) (count : Nat) (ds : List Word) : Prop where
  unasked : s.trampoline = 0 → ds = []
  fits : s.trampoline ≠ 0 → s.trampoline.toNat + tableSize count ≤ 2 ^ 64
  occupied : s.trampoline ≠ 0 → Occupied s.mem s.trampoline count ds

/-- The table a call works on. -/
def State.tableFor (s : State) (mapping : Mapping count) : Word :=
  if s.trampoline = 0 then mapping.table else s.trampoline

/-- The bytes a call may change: its table, or the pages it maps for a new one. -/
def State.reach (s : State) (mapping : Mapping count) : Set Word :=
  if s.trampoline = 0 then block mapping.table mapping.size
  else block s.trampoline (tableSize count)

theorem Mapping.size_le (mapping : Mapping count) : mapping.size ≤ 2 ^ 64 :=
  Nat.le_trans (Nat.le_add_left _ _) mapping.fits

theorem Mapping.table_fits (mapping : Mapping count) :
    mapping.table.toNat + tableSize count ≤ 2 ^ 64 :=
  Nat.le_trans (Nat.add_le_add_left mapping.room _) mapping.fits

theorem Mapping.count_le_readable (mapping : Mapping count) : count ≤ mapping.readable := by
  have hroom := mapping.room
  simp only [tableSize, tableHeader, trampolineSize] at hroom
  simp only [Mapping.readable, trampolineSize]
  omega

theorem ensureTable_spec (mapping : Mapping h.count) (hs : s.Holds h.count ds) :
    (ensureTable h mapping s).trampoline = s.tableFor mapping ∧ s.tableFor mapping ≠ 0 ∧
      (s.tableFor mapping).toNat + tableSize h.count ≤ 2 ^ 64 ∧
      Occupied (ensureTable h mapping s).mem (s.tableFor mapping) h.count ds ∧
      ∀ x ∉ s.reach mapping, (ensureTable h mapping s).mem x = s.mem x := by
  rw [ensureTable, State.tableFor, State.reach]
  by_cases hnull : s.trampoline = 0
  · rw [if_pos hnull, if_pos hnull, if_pos hnull, hs.unasked hnull]
    exact ⟨rfl, mapping.nonnull, mapping.table_fits,
      occupied_create (Nat.le_trans mapping.room mapping.size_le),
      fun x hx => create_of_notMem mapping.room mapping.size_le hx⟩
  · rw [if_neg hnull, if_neg hnull, if_neg hnull]
    exact ⟨rfl, hnull, hs.fits hnull, hs.occupied hnull, fun x _ => rfl⟩

theorem State.block_subset_reach (s : State) (mapping : Mapping count) :
    block (s.tableFor mapping) (tableSize count) ⊆ s.reach mapping := by
  rw [State.tableFor, State.reach]
  by_cases hnull : s.trampoline = 0
  · rw [if_pos hnull, if_pos hnull]
    exact fun x hx => Nat.lt_of_lt_of_le hx mapping.room
  · rw [if_neg hnull, if_neg hnull]

/-- A call interns its callback and returns the stub of its position. -/
theorem allocCallbackTrampoline_spec (mapping : Mapping h.count) (hs : s.Holds h.count ds)
    (hne : input ≠ 0)
    (hroom : (intern ds input).length ≤ h.count) :
    ∃ s', allocCallbackTrampoline h mapping s input =
        some (stub (s.tableFor mapping) (ds.idxOf input), s') ∧
      s'.trampoline = s.tableFor mapping ∧ s'.trampoline ≠ 0 ∧
      s'.Holds h.count (intern ds input) ∧ ∀ x ∉ s.reach mapping, s'.mem x = s.mem x := by
  obtain ⟨htable, hnonnull, hfits, hocc, hframe⟩ := ensureTable_spec mapping hs
  have hfit : tableSize h.count ≤ 2 ^ 64 := Nat.le_trans (Nat.le_add_left _ _) hfits
  obtain ⟨m', hfind, hocc', hframe'⟩ :=
    hocc.findTrampoline hfit hne hroom mapping.count_le_readable
  refine ⟨⟨m', s.tableFor mapping⟩, ?_, rfl, hnonnull,
    ⟨fun h0 => absurd h0 hnonnull, fun _ => hfits, fun _ => hocc'⟩, ?_⟩
  · rw [allocCallbackTrampoline, if_neg hne]
    simp only [htable, hfind, Option.map_some]
  · intro x hx
    exact (hframe' x fun hmem => hx (s.block_subset_reach mapping hmem)).trans (hframe x hx)

/-! ## A sequence of calls -/

theorem State.tableFor_of_ne (hs : s.trampoline ≠ 0) (mapping : Mapping count) :
    s.tableFor mapping = s.trampoline := if_neg hs

/-- A sequence of calls interns its callbacks, and returns to each the stub of its
position. -/
theorem allocAll_spec (mapping : Mapping h.count) (hs : s.Holds h.count ds)
    (hne : ∀ a ∈ inputs, a ≠ 0)
    (hroom : (internAll ds inputs).length ≤ h.count) :
    ∃ s', allocAll h mapping s inputs = some (inputs.map fun a =>
        stub (s.tableFor mapping) ((internAll ds inputs).idxOf a), s') ∧
      s'.tableFor mapping = s.tableFor mapping ∧ s'.Holds h.count (internAll ds inputs) := by
  induction inputs generalizing s ds with
  | nil => exact ⟨s, rfl, rfl, hs⟩
  | cons a as ih =>
      rw [internAll_cons] at hroom
      have hstep : intern ds a <+: internAll (intern ds a) as := isPrefix_internAll _ as
      obtain ⟨s₁, halloc, htable, hnonnull, hs₁, -⟩ :=
        allocCallbackTrampoline_spec mapping hs (hne a List.mem_cons_self)
          (Nat.le_trans hstep.length_le hroom)
      obtain ⟨s₂, hrest, htable₂, hs₂⟩ :=
        ih hs₁ (fun b hb => hne b (List.mem_cons_of_mem a hb)) hroom
      have hsame : s₁.tableFor mapping = s.tableFor mapping := by
        rw [State.tableFor_of_ne hnonnull, htable]
      have hidx : (internAll (intern ds a) as).idxOf a = ds.idxOf a := by
        rw [idxOf_eq_of_isPrefix hstep (mem_intern.mpr (.inr rfl)), idxOf_intern]
      refine ⟨s₂, ?_, htable₂.trans hsame, hs₂⟩
      rw [hsame] at hrest
      simp [allocAll, halloc, hrest, hidx]

/-! ## What the table promises -/

/-- The results of a sequence of calls, in the state after it: each is a stub of the
table, stands for its callback, and belongs to that callback alone. -/
structure StandsFor (h : Handler) (mapping : Mapping h.count) (s : State)
    (inputs results : List Word) : Prop where
  length : results.length = inputs.length
  initialised : ∀ r ∈ results, ∃ i < h.count, r = stub mapping.table i
  saved : ∀ p ∈ inputs.zip results,
    savedFunction s.mem (p.2 - BitVec.ofNat 64 thunkInstrOffset) = p.1
  distinct : ∀ p ∈ inputs.zip results, ∀ q ∈ inputs.zip results, p.1 = q.1 ↔ p.2 = q.2
  unwraps : ∀ p ∈ inputs.zip results, unwrapTrampoline s.mem p.2 = p.1

/-- At every moment of the sequence of calls, all results so far stand for their
callbacks. -/
def AllocCorrect (h : Handler) (mapping : Mapping h.count) (m : Memory) (inputs : List Word) :
    Prop :=
  ∀ n, ∃ results s, allocAll h mapping ⟨m, 0⟩ (inputs.take n) = some (results, s) ∧
    StandsFor h mapping s (inputs.take n) results

/-- Stubs of a table are no more than its trampolines. -/
theorem StandsFor.card_le {results : List Word} (hst : StandsFor h mapping s inputs results) :
    inputs.toFinset.card ≤ h.count := by
  have hfst : inputs.toFinset = (inputs.zip results).toFinset.image Prod.fst := by
    ext a
    rw [Finset.mem_image]
    simp only [List.mem_toFinset]
    rw [← List.mem_map, List.map_fst_zip (Nat.le_of_eq hst.length.symm)]
  have hsnd : (inputs.zip results).toFinset.image Prod.snd ⊆
      (Finset.range h.count).image (stub mapping.table) := by
    intro r hr
    rw [Finset.mem_image] at hr ⊢
    obtain ⟨p, hp, rfl⟩ := hr
    obtain ⟨i, hi, hri⟩ := hst.initialised p.2 (List.of_mem_zip (List.mem_toFinset.mp hp)).2
    exact ⟨i, Finset.mem_range.mpr hi, hri.symm⟩
  have hinj : Set.InjOn Prod.snd ((inputs.zip results).toFinset : Set (Word × Word)) := by
    rintro p hp q hq hpq
    rw [Finset.mem_coe, List.mem_toFinset] at hp hq
    exact Prod.ext ((hst.distinct p hp q hq).mpr hpq) hpq
  calc
    inputs.toFinset.card ≤ (inputs.zip results).toFinset.card := by
      rw [hfst]
      exact Finset.card_image_le
    _ = ((inputs.zip results).toFinset.image Prod.snd).card :=
      (Finset.card_image_of_injOn hinj).symm
    _ ≤ ((Finset.range h.count).image (stub mapping.table)).card := Finset.card_le_card hsnd
    _ ≤ (Finset.range h.count).card := Finset.card_image_le
    _ = h.count := Finset.card_range h.count

theorem AllocCorrect.card_le (hcorrect : AllocCorrect h mapping m inputs) :
    inputs.toFinset.card ≤ h.count := by
  obtain ⟨results, s, -, hst⟩ := hcorrect inputs.length
  rw [List.take_length] at hst
  exact hst.card_le

/-- An input of the sequence and its result. -/
theorem mem_zip_map {f : Word → Word} {p : Word × Word} (hp : p ∈ inputs.zip (inputs.map f)) :
    p.1 ∈ inputs ∧ p.2 = f p.1 := by
  induction inputs with
  | nil => cases hp
  | cons a as ih =>
      rw [List.map_cons, List.zip_cons_cons] at hp
      rcases List.mem_cons.mp hp with rfl | hp
      · exact ⟨List.mem_cons_self, rfl⟩
      · exact ⟨List.mem_cons_of_mem a (ih hp).1, (ih hp).2⟩

/-- A table that holds the callbacks stands for them. -/
theorem standsFor_of_holds (hs : s.Holds h.count ds) (htable : s.tableFor mapping = mapping.table)
    (hmem : ∀ a ∈ inputs, a ∈ ds) :
    StandsFor h mapping s inputs (inputs.map fun a => stub mapping.table (ds.idxOf a)) := by
  by_cases hnull : s.trampoline = 0
  · have hnil : inputs = [] := by
      rw [List.eq_nil_iff_forall_not_mem]
      intro a ha
      simpa [hs.unasked hnull] using hmem a ha
    subst hnil
    exact ⟨rfl, by simp, by simp, by simp, by simp⟩
  rw [State.tableFor_of_ne hnull] at htable
  have hocc : Occupied s.mem mapping.table h.count ds := htable ▸ hs.occupied hnull
  have hidx {a : Word} (ha : a ∈ inputs) : ds.idxOf a < h.count :=
    Nat.lt_of_lt_of_le (List.idxOf_lt_length_of_mem (hmem a ha)) hocc.room
  have hget {a : Word} (ha : a ∈ inputs) : ds.getD (ds.idxOf a) 0 = a := by
    rw [List.getD_eq_getElem?_getD, List.getElem?_idxOf (hmem a ha)]
    rfl
  have hlast {i : Nat} (hi : i < h.count) : tableSize (i + 1) ≤ 2 ^ 64 :=
    Nat.le_trans (tableSize_mono hi) (Nat.le_trans mapping.room mapping.size_le)
  constructor
  · rw [List.length_map]
  · intro r hr
    obtain ⟨a, ha, rfl⟩ := List.mem_map.mp hr
    exact ⟨ds.idxOf a, hidx ha, rfl⟩
  · intro p hp
    obtain ⟨ha, hp⟩ := mem_zip_map hp
    rw [hp, stub_sub, hocc.saved _ (hidx ha), hget ha]
  · intro p hp q hq
    obtain ⟨ha, hp⟩ := mem_zip_map hp
    obtain ⟨hb, hq⟩ := mem_zip_map hq
    rw [hp, hq]
    constructor
    · intro hab
      rw [hab]
    · intro hab
      exact (List.idxOf_inj (hmem _ ha)).mp (stub_inj (hlast (hidx ha)) (hlast (hidx hb)) hab)
  · intro p hp
    obtain ⟨ha, hp⟩ := mem_zip_map hp
    rw [hp, hocc.unwrap_stub (hidx ha) mapping.table_fits, hget ha]

/-- **The table is correct up to its count.**  For callbacks that are not null, the table
keeps its promises exactly when it is asked for at most `Count` distinct callbacks. -/
theorem allocCorrect_iff (mapping : Mapping h.count) (m : Memory) (hne : ∀ a ∈ inputs, a ≠ 0) :
    AllocCorrect h mapping m inputs ↔ inputs.toFinset.card ≤ h.count := by
  constructor
  · exact AllocCorrect.card_le
  · intro hcard n
    have hsub : (inputs.take n).toFinset ⊆ inputs.toFinset := by
      intro a ha
      rw [List.mem_toFinset] at ha ⊢
      exact List.mem_of_mem_take ha
    have hroom : (internAll [] (inputs.take n)).length ≤ h.count := by
      rw [length_internAll]
      exact (Finset.card_le_card hsub).trans hcard
    have hs : State.Holds ⟨m, 0⟩ h.count [] :=
      ⟨fun _ => rfl, fun h0 => absurd rfl h0, fun h0 => absurd rfl h0⟩
    obtain ⟨s', hrun, htable, hs'⟩ := allocAll_spec mapping hs
      (fun a ha => hne a (List.mem_of_mem_take ha)) hroom
    exact ⟨_, s', hrun, standsFor_of_holds hs' htable fun a ha => mem_internAll.mpr (.inr ha)⟩

/-- An instance with the default `Count` on x86_64. -/
def defaultHandler : Handler where
  target := 0x401000
  count := kMaxCallbackTrampolineCount
  codegen := X8664.codegen 0x402000

/-- One page is enough for the default `Count`. -/
def onePage : Mapping kMaxCallbackTrampolineCount where
  table := 0x10000
  size := 4096
  nonnull := by decide
  room := by decide
  fits := by decide

/-- Two callbacks, the first passed twice. -/
theorem allocCorrect_twice :
    AllocCorrect defaultHandler onePage (fun _ => 0) [0x501000, 0x502000, 0x501000] :=
  (allocCorrect_iff (h := defaultHandler) onePage (fun _ => 0) (by simp)).mpr
    (Nat.le_trans (List.toFinset_card_le _) (by decide))

/-- `n` different callbacks. -/
def callbacks (n : Nat) : List Word := (List.range n).map fun i => BitVec.ofNat 64 (0x501000 + i)

/-- The seventeenth callback is handed a stub behind the table. -/
theorem not_allocCorrect_seventeen :
    (∀ a ∈ callbacks 17, a ≠ 0) ∧
      ¬ AllocCorrect defaultHandler onePage (fun _ => 0) (callbacks 17) := by
  constructor
  · intro a ha
    obtain ⟨i, hi, rfl⟩ := List.mem_map.mp ha
    rw [List.mem_range] at hi
    bv_omega
  · intro hcorrect
    have hnodup : (callbacks 17).Nodup := by decide
    have hcard : (callbacks 17).toFinset.card ≤ 16 := hcorrect.card_le
    rw [List.toFinset_card_of_nodup hnodup] at hcard
    simp [callbacks] at hcard

end Lorelei.Trampoline
