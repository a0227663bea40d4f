import Lorelei.Variadic.Adaptor

/-!
# What boxing and replay carry

However a value is boxed (`Boxes`), its entry has the tag of its type and the value in
the field of its type (`Boxes.carried`), and the replay tables pass that field on
(`receive_argHelper`, `receive_varargHelper`).  Every table agrees with the others on
every type.

The field of `unsigned long` is 32 bits wide, so an `unsigned long` is carried by its
low half.  `replay_faithful_iff` is the exact condition under which nothing is lost.
-/

namespace Lorelei.Variadic

open List (Forall₂)

/-! ## The union -/

/-- Writing the low bits of a union and reading as many or fewer. -/
theorem setWidth_writeLow (u : BitVec 64) {w w' : Nat} (v : BitVec w) (h : w' ≤ w) (hw : w ≤ 64) :
    (writeLow u v).setWidth w' = v.setWidth w' := by
  ext i hi
  have hlt : i < w := by omega
  have hlt' : i < 64 := by omega
  simp [writeLow, hlt, hlt']

theorem Field.width_le (field : Field) : field.width ≤ 64 := by
  cases field <;> decide

@[simp] theorem CVargEntry.type_set (e : CVargEntry) (field : Field) {w : Nat} (v : BitVec w) :
    (e.set field v).type = e.type := rfl

@[simp] theorem CVargEntry.get_set (e : CVargEntry) (field : Field) {w : Nat} (v : BitVec w) :
    (e.set field v).get field = v.setWidth field.width := by
  rw [CVargEntry.get, CVargEntry.set]
  exact (setWidth_writeLow _ _ (Nat.le_refl _) field.width_le).trans (BitVec.setWidth_eq _)

/-! ## Boxing -/

/-- The code of a type in a format of `callFormatBox64`. -/
def typeCode : CType → Char
  | .char => 'c'
  | .uchar => 'C'
  | .short => 's'
  | .ushort => 'S'
  | .int => 'i'
  | .uint => 'I'
  | .long => 'l'
  | .ulong => 'u'
  | .longlong => 'L'
  | .ulonglong => 'U'
  | .float => 'f'
  | .double => 'F'
  | .pointer => 'p'

/-- The storage `arg` holds the value `v`. -/
def Stored (v : Value) (arg : BitVec 64) : Prop := load v.type arg = v.bits

/-- The entries a value can be boxed in: by a reader of `va_type.h`, by `CVargGet`, or by
its code. -/
inductive Boxes : Value → CVargEntry → Prop where
  | reader (r : Reader) (val : BitVec r.type.width) : Boxes ⟨r.type, val⟩ (r.box val)
  | get (result : CVargEntry) (x : Value) : Boxes x (cvargGet result x)
  | code (entry : CVargEntry) {x : Value} {arg : BitVec 64} (h : Stored x arg) :
      Boxes x (callFormatBox64ArgEntry (typeCode x.type) entry arg)

/-- What is left of a value once it has been through the field of its type. -/
def Value.carried (v : Value) : Value :=
  ⟨v.type, (v.bits.setWidth (cvargValueRef v.type).width).setWidth v.type.width⟩

/-- The readers box as `CVargGet` does. -/
theorem Reader.box_eq (r : Reader) (val : BitVec r.type.width) :
    r.box val = cvargGet (CVargEntry.ofType .void) ⟨r.type, val⟩ := by
  cases r <;> rfl

/-- The codes box as `CVargGet` does. -/
theorem argEntry_eq (type : CType) (entry : CVargEntry) (arg : BitVec 64) :
    callFormatBox64ArgEntry (typeCode type) entry arg =
      cvargGet entry ⟨type, load type arg⟩ := by
  cases type <;> rfl

theorem cvargValue_get (result : CVargEntry) (x : Value) :
    cvargValue x.type (cvargGet result x) = x.carried := by
  simp [cvargValue, Value.carried, cvargGet]

/-- A boxed value has the tag of its type, and its field holds what the field can. -/
theorem Boxes.carried {v : Value} {e : CVargEntry} (h : Boxes v e) :
    e.type = cvargTypeID v.type ∧ cvargValue v.type e = v.carried := by
  cases h with
  | reader r val =>
      rw [Reader.box_eq]
      exact ⟨rfl, cvargValue_get _ _⟩
  | get result x => exact ⟨rfl, cvargValue_get _ _⟩
  | @code entry x arg h =>
      rcases v with ⟨type, bits⟩
      obtain rfl : load type arg = bits := h
      rw [argEntry_eq]
      exact ⟨rfl, cvargValue_get _ _⟩

theorem Boxes.type_ne_void {v : Value} {e : CVargEntry} (h : Boxes v e) : e.type ≠ .void := by
  rw [h.carried.1]
  cases v.type <;> decide

/-- An `unsigned long` that its 32-bit field can hold. -/
def Value.Fits (v : Value) : Prop := v.type = .ulong → v.bits.toNat < 2 ^ 32

/-- A value whose field is as wide as its type is carried whole. -/
theorem Value.carried_of_width {v : Value} (h : (cvargValueRef v.type).width = v.type.width) :
    v.carried = v := by
  rw [Value.carried, h, BitVec.setWidth_eq, BitVec.setWidth_eq]

/-- The low half of a word is the word exactly if its high half is zero. -/
theorem setWidth_setWidth_eq_iff (x : BitVec 64) :
    (x.setWidth 32).setWidth 64 = x ↔ x.toNat < 2 ^ 32 := by
  rw [← BitVec.toNat_inj]
  simp only [BitVec.toNat_setWidth]
  omega

/-- Exactly the values that fit are carried whole. -/
theorem Value.carried_eq_iff (v : Value) : v.carried = v ↔ v.Fits := by
  by_cases hulong : v.type = .ulong
  · rcases v with ⟨type, bits⟩
    obtain rfl : type = .ulong := hulong
    constructor
    · intro h _
      exact (setWidth_setWidth_eq_iff bits).mp (eq_of_heq (Value.mk.inj h).2)
    · intro h
      exact congrArg (Value.mk .ulong) ((setWidth_setWidth_eq_iff bits).mpr (h rfl))
  · have hwidth : (cvargValueRef v.type).width = v.type.width := by
      cases htype : v.type <;> first | rfl | exact absurd htype hulong
    exact ⟨fun _ h => absurd h hulong, fun _ => carried_of_width hwidth⟩

/-! ## Replay -/

/-- The plain helper passes the field of an entry to a parameter of its type. -/
theorem receive_argHelper {type : CType} {e : CVargEntry} (h : e.type = cvargTypeID type) :
    ∃ slot, avcallArgHelper e = [slot] ∧
      Slot.receive false type slot = some (cvargValue type e) := by
  cases type with
  | ulong =>
      refine ⟨⟨.ulong, (e.get .ul).setWidth 64⟩, by simp only [avcallArgHelper, h, cvargTypeID],
        ?_⟩
      simp only [Slot.receive, cvargValue, cvargValueRef]
      exact congrArg (fun x => some (Value.mk .ulong x)) (BitVec.setWidth_eq _)
  | _ => exact ⟨_, by simp only [avcallArgHelper, h, cvargTypeID]; rfl, rfl⟩

/-- The helper for the variadic part passes it to a parameter of a promoted type. -/
theorem receive_varargHelper (pf : Platform) {type : CType} {e : CVargEntry}
    (h : e.type = cvargTypeID type) (hprom : type.isPromoted = true) :
    ∃ slot, avcallVarargHelper pf e = [slot] ∧
      Slot.receive pf.riscv64 type slot = some (cvargValue type e) := by
  cases hpf : pf.riscv64 with
  | false =>
      have heq : avcallVarargHelper pf e = avcallArgHelper e := by
        simp [avcallVarargHelper, hpf]
      rw [heq]
      exact receive_argHelper h
  | true =>
      by_cases hdouble : type = .double
      · subst hdouble
        exact ⟨⟨.longlong, e.get .d⟩, by simp [avcallVarargHelper, hpf, h, cvargTypeID],
          rfl⟩
      · have hnofloat : type.isFloat = false := by
          cases type <;> simp_all [CType.isFloat, CType.isPromoted]
        obtain ⟨slot, hslot, hreceive⟩ := receive_argHelper h
        refine ⟨slot, ?_, ?_⟩
        · rw [← hslot, avcallVarargHelper, if_neg]
          rw [h]
          cases type <;> simp_all [cvargTypeID, CType.isFloat]
        · simpa [Slot.receive, hnofloat] using hreceive

/-- A list of boxed values arrives slot by slot. -/
theorem receiveAll_flatMap {helper : CVargEntry → List Slot} {intFloats : Bool}
    {vs : List Value} {es : List CVargEntry} (h : Forall₂ Boxes vs es)
    (hhelper : ∀ v ∈ vs, ∀ e, Boxes v e → ∃ slot, helper e = [slot] ∧
      Slot.receive intFloats v.type slot = some v.carried) :
    receiveAll intFloats (vs.map Value.type) (es.flatMap helper) =
      some (vs.map Value.carried) := by
  induction h with
  | nil => rfl
  | @cons v e vs es hve _ ih =>
      obtain ⟨slot, hslot, hreceive⟩ := hhelper v List.mem_cons_self e hve
      have hrest := ih fun w hw => hhelper w (List.mem_cons_of_mem _ hw)
      simp [List.flatMap_cons, hslot, receiveAll, hreceive, hrest]

/-- A callee that receives as many values as are passed has as many slots. -/
theorem length_of_receiveAll {intFloats : Bool} {types : List CType} {slots : List Slot}
    {vs : List Value} (h : receiveAll intFloats types slots = some vs) :
    slots.length = types.length := by
  induction types generalizing slots vs with
  | nil =>
      cases slots with
      | nil => rfl
      | cons slot slots => simp [receiveAll] at h
  | cons type types ih =>
      cases slots with
      | nil => simp [receiveAll] at h
      | cons slot slots =>
          simp only [receiveAll, Option.bind_eq_bind, Option.bind_eq_some_iff] at h
          obtain ⟨_, _, ws, hws, _⟩ := h
          rw [List.length_cons, List.length_cons, ih hws]

/-! ## Counting the entries -/

/-- How an array of entries is handed over: with its length, or with a terminating
entry. -/
inductive Count where
  | given
  | sentinel (union : BitVec 64) (rest : List CVargEntry)

/-- The count that is passed for `n` entries. -/
def Count.argc (n : Nat) : Count → Int
  | .given => castInt n
  | .sentinel _ _ => -1

/-- The array that is passed. -/
def Count.argv (es : List CVargEntry) : Count → List CVargEntry
  | .given => es
  | .sentinel union rest => es ++ ⟨.void, union⟩ :: rest

theorem castInt_of_lt {n : Nat} (h : n < 2 ^ 31) : castInt n = n := by
  rw [castInt, BitVec.toInt_eq_toNat_of_lt]
  · simp only [BitVec.toNat_ofNat]
    omega
  · simp only [BitVec.toNat_ofNat]
    omega

theorem castInt_lt (n : Nat) : castInt n < 2 ^ 31 := by
  have := BitVec.toInt_lt (x := BitVec.ofNat 32 n)
  simpa [castInt] using this

theorem sentinelIndex_eq_none {es : List CVargEntry} (h : ∀ e ∈ es, e.type ≠ .void) :
    sentinelIndex es = none := by
  induction es with
  | nil => rfl
  | cons e es ih =>
      rw [sentinelIndex, if_neg (h e List.mem_cons_self),
        ih fun e he => h e (List.mem_cons_of_mem _ he)]
      rfl

theorem sentinelIndex_append {es : List CVargEntry} (h : ∀ e ∈ es, e.type ≠ .void)
    (union : BitVec 64) (rest : List CVargEntry) :
    sentinelIndex (es ++ ⟨.void, union⟩ :: rest) = some es.length := by
  induction es with
  | nil => rfl
  | cons e es ih =>
      rw [List.cons_append, sentinelIndex, if_neg (h e List.mem_cons_self),
        ih fun e he => h e (List.mem_cons_of_mem _ he)]
      rfl

theorem entries_of_nonneg {argc : Int} (h : 0 ≤ argc) (argv : List CVargEntry) :
    entries argc argv =
      if argc.toNat ≤ argv.length then some (argv.take argc.toNat) else none := by
  rw [entries, entryCount, if_neg (by omega), Option.bind_some]

theorem entries_of_neg {argc : Int} (h : argc < 0) (argv : List CVargEntry) :
    entries argc argv = (cvargEntryLength argv).bind fun n =>
      if n ≤ argv.length then some (argv.take n) else none := by
  rw [entries, entryCount, if_pos h]

/-- The loops stop at the sentinel, unless its index is no `int`. -/
theorem entries_sentinel {es : List CVargEntry} (h : ∀ e ∈ es, e.type ≠ .void)
    (union : BitVec 64) (rest : List CVargEntry) :
    entries (-1) (es ++ ⟨.void, union⟩ :: rest) =
      if es.length < 2 ^ 31 then some es else none := by
  rw [entries_of_neg (by decide), cvargEntryLength, sentinelIndex_append h, Option.filter_some]
  by_cases hlt : es.length < 2 ^ 31
  · rw [if_pos (decide_eq_true hlt), if_pos hlt, Option.bind_some, if_pos (by simp),
      List.take_left]
  · rw [if_neg (by rwa [decide_eq_true_iff]), if_neg hlt]
    rfl

/-- What the loops read is a prefix of the entries. -/
theorem entries_isPrefix {es es' : List CVargEntry} (h : ∀ e ∈ es, e.type ≠ .void) (c : Count)
    (hes : entries (c.argc es.length) (c.argv es) = some es') : es' <+: es := by
  cases c with
  | given =>
      change entries (castInt es.length) es = some es' at hes
      by_cases hneg : castInt es.length < 0
      · rw [entries_of_neg hneg, cvargEntryLength, sentinelIndex_eq_none h] at hes
        cases hes
      · rw [entries_of_nonneg (by omega), Option.ite_none_right_eq_some] at hes
        obtain ⟨_, hes⟩ := hes
        cases hes
        exact List.take_prefix _ _
  | sentinel union rest =>
      change entries (-1) (es ++ ⟨.void, union⟩ :: rest) = some es' at hes
      rw [entries_sentinel h] at hes
      obtain ⟨-, hes⟩ := Option.ite_none_right_eq_some.mp hes
      cases hes
      exact List.prefix_rfl

/-- The loops read all entries exactly if their number is an `int`. -/
theorem entries_count {es : List CVargEntry} (h : ∀ e ∈ es, e.type ≠ .void) (c : Count) :
    entries (c.argc es.length) (c.argv es) = some es ↔ es.length < 2 ^ 31 := by
  cases c with
  | given =>
      change entries (castInt es.length) es = some es ↔ _
      by_cases hlt : es.length < 2 ^ 31
      · refine iff_of_true ?_ hlt
        rw [castInt_of_lt hlt, entries_of_nonneg (Int.natCast_nonneg _), Int.toNat_natCast,
          if_pos (Nat.le_refl _), List.take_length]
      · refine ⟨fun hes => ?_, fun hlt' => absurd hlt' hlt⟩
        by_cases hneg : castInt es.length < 0
        · rw [entries_of_neg hneg, cvargEntryLength, sentinelIndex_eq_none h] at hes
          cases hes
        · have hcast := castInt_lt es.length
          rw [entries_of_nonneg (by omega), if_pos (by omega), Option.some.injEq] at hes
          have hlen := congrArg List.length hes
          rw [List.length_take] at hlen
          omega
  | sentinel union rest =>
      change entries (-1) (es ++ ⟨.void, union⟩ :: rest) = some es ↔ _
      rw [entries_sentinel h, Option.ite_none_right_eq_some]
      exact and_iff_left rfl

/-! ## The returned value -/

/-- The entry for a return type; `none` is `void`. -/
def retEntry (rt : Option CType) (union : BitVec 64) : CVargEntry :=
  ⟨(rt.map cvargTypeID).getD .void, union⟩

/-- The value of this type in the return register. -/
def retValue (returned : BitVec 64) (type : CType) : Value :=
  ⟨type, returned.setWidth type.width⟩

/-- libffcall stores as many bytes as the type has. -/
theorem union_storeReturn (type : CType) (union returned : BitVec 64) :
    (storeReturn (retEntry (some type) union) returned).union =
      writeLow union (returned.setWidth type.width) := by
  cases type <;> rfl

theorem valueRef_width_le (type : CType) : (cvargValueRef type).width ≤ type.width := by
  cases type <;> decide

theorem CType.width_le (type : CType) : type.width ≤ 64 := by
  cases type <;> decide

/-- The return box carries a value as the argument boxes do. -/
theorem cvargValue_storeReturn (type : CType) (union returned : BitVec 64) :
    cvargValue type (storeReturn (retEntry (some type) union) returned) =
      (retValue returned type).carried := by
  rw [cvargValue, CVargEntry.get, union_storeReturn,
    setWidth_writeLow _ _ (valueRef_width_le type) type.width_le]
  rfl

/-- `callFormatBox64` reads the box at the same field. -/
theorem callFormatBox64Ret_eq (type : CType) (union returned : BitVec 64) :
    callFormatBox64Ret (storeReturn (retEntry (some type) union) returned) =
      some (cvargValue type (storeReturn (retEntry (some type) union) returned)) := by
  cases type with
  | ulong => rfl
  | _ => exact congrArg (fun x => some (Value.mk _ x)) (BitVec.setWidth_eq _).symm

/-! ## The whole way -/

/-- `VariadicAdaptor::call` or `VariadicAdaptor::vcall`. -/
inductive Mode where
  | call | vcall
deriving DecidableEq, Repr

def Mode.replay : Mode → Platform → Int → List CVargEntry → Int → List CVargEntry → CVargEntry →
    BitVec 64 → Option (Passed × CVargEntry)
  | .call => Variadic.call
  | .vcall => Variadic.vcall

/-- `vcall` passes what `call` passes. -/
theorem Mode.replay_eq (mode : Mode) (pf : Platform) (argc1 : Int) (argv1 : List CVargEntry)
    (argc2 : Int) (argv2 : List CVargEntry) (ret : CVargEntry) (returned : BitVec 64) :
    mode.replay pf argc1 argv1 argc2 argv2 ret returned =
      Variadic.call pf argc1 argv1 argc2 argv2 ret returned := by
  cases mode with
  | call => rfl
  | vcall =>
      simp only [Mode.replay, Variadic.vcall, vcallForward, Variadic.call, Option.bind_eq_bind]
      cases entries argc1 argv1 <;> cases entries argc2 argv2 <;> rfl

/-- A callee with these parameters receives these values. -/
def Passed.Delivers (pf : Platform) (p : Passed) (fixed variadic : List Value) : Prop :=
  receiveAll false (fixed.map Value.type) p.fixed = some fixed ∧
    receiveAll pf.riscv64 (variadic.map Value.type) p.variadic = some variadic

/-- Boxed values are replayed to a callee that receives the same values, and the box
for what it returns gives the value it returned. -/
def CallFaithful (pf : Platform) (mode : Mode) (c1 c2 : Count) (fixed variadic : List Value)
    (argv1 argv2 : List CVargEntry) (rt : Option CType) (union returned : BitVec 64) : Prop :=
  ∃ p e, mode.replay pf (c1.argc fixed.length) (c1.argv argv1) (c2.argc variadic.length)
      (c2.argv argv2) (retEntry rt union) returned = some (p, e) ∧
    p.Delivers pf fixed variadic ∧ ∀ type ∈ rt, cvargValue type e = retValue returned type

/-- The format of a function with these parameters and this return type. -/
def box64Format (rt : Option CType) (fixed : List Value) : List Char :=
  (rt.map typeCode).getD 'v' :: '_' :: fixed.map fun v => typeCode v.type

/-- `callFormatBox64` passes the values that are stored, and stores the value returned. -/
def Box64Faithful (pf : Platform) (fixed : List Value) (vargs : List CVargEntry)
    (args : List (BitVec 64)) (rt : Option CType) (returned : BitVec 64) : Prop :=
  ∃ p, callFormatBox64 pf (box64Format rt fixed) vargs args true returned =
      some (p, rt.map (retValue returned)) ∧
    p.Delivers pf fixed []

/-- No `unsigned long` needs its high half, and the numbers of values are `int`s. -/
structure Carriable (fixed variadic : List Value) (rt : Option CType) (returned : BitVec 64) :
    Prop where
  fixed_fits : ∀ v ∈ fixed, v.Fits
  variadic_fits : ∀ v ∈ variadic, v.Fits
  ret_fits : ∀ type ∈ rt, (retValue returned type).Fits
  fixed_length : fixed.length < 2 ^ 31
  variadic_length : variadic.length < 2 ^ 31

theorem map_carried_eq_iff (vs : List Value) :
    vs.map Value.carried = vs ↔ ∀ v ∈ vs, v.Fits := by
  induction vs with
  | nil => simp
  | cons v vs ih =>
      rw [List.map_cons, List.cons.injEq, List.forall_mem_cons, ih, Value.carried_eq_iff]

theorem exists_boxes {vs : List Value} {es : List CVargEntry} (h : Forall₂ Boxes vs es) :
    ∀ e ∈ es, ∃ v ∈ vs, Boxes v e := by
  induction h with
  | nil => simp
  | @cons v e vs es hve _ ih =>
      refine List.forall_mem_cons.mpr ⟨⟨v, List.mem_cons_self, hve⟩, fun e he => ?_⟩
      obtain ⟨w, hw, hwe⟩ := ih e he
      exact ⟨w, List.mem_cons_of_mem _ hw, hwe⟩

/-- One of the two loops delivers its values exactly if they fit and are not too many. -/
theorem loop_iff {helper : CVargEntry → List Slot} {intFloats : Bool} {vs : List Value}
    {es : List CVargEntry} (h : Forall₂ Boxes vs es) (c : Count)
    (hhelper : ∀ v ∈ vs, ∀ e, Boxes v e → ∃ slot, helper e = [slot] ∧
      Slot.receive intFloats v.type slot = some v.carried) :
    (∃ es', entries (c.argc vs.length) (c.argv es) = some es' ∧
        receiveAll intFloats (vs.map Value.type) (es'.flatMap helper) = some vs) ↔
      (∀ v ∈ vs, v.Fits) ∧ vs.length < 2 ^ 31 := by
  have hvoid : ∀ e ∈ es, e.type ≠ .void := fun e he => by
    obtain ⟨v, _, hve⟩ := exists_boxes h e he
    exact hve.type_ne_void
  have hone : ∀ e ∈ es, (helper e).length = 1 := fun e he => by
    obtain ⟨v, hv, hve⟩ := exists_boxes h e he
    obtain ⟨slot, hslot, _⟩ := hhelper v hv e hve
    rw [hslot, List.length_singleton]
  have hall := receiveAll_flatMap h hhelper
  rw [h.length_eq]
  constructor
  · rintro ⟨es', hes, hreceive⟩
    have hpre := entries_isPrefix hvoid c hes
    -- As many slots as values, so the loop has read all entries.
    have hlen := length_of_receiveAll hreceive
    rw [List.length_flatMap, List.length_map, h.length_eq,
      List.map_congr_left fun e he => hone e (hpre.mem he)] at hlen
    obtain rfl : es' = es := hpre.eq_of_length (by simpa using hlen)
    rw [hall, Option.some.injEq, map_carried_eq_iff] at hreceive
    exact ⟨hreceive, (entries_count hvoid c).mp hes⟩
  · rintro ⟨hfits, hlt⟩
    refine ⟨es, (entries_count hvoid c).mpr hlt, ?_⟩
    rw [hall, (map_carried_eq_iff vs).mpr hfits]

theorem retValue_iff (rt : Option CType) (union returned : BitVec 64) :
    (∀ type ∈ rt, cvargValue type (storeReturn (retEntry rt union) returned) =
      retValue returned type) ↔ ∀ type ∈ rt, (retValue returned type).Fits := by
  cases rt with
  | none => simp
  | some type =>
      simp only [Option.mem_def, Option.some.injEq, forall_eq']
      rw [cvargValue_storeReturn, Value.carried_eq_iff]

/-- What a replay of boxed values passes. -/
theorem callFaithful_iff (pf : Platform) (mode : Mode) (c1 c2 : Count)
    {fixed variadic : List Value} {argv1 argv2 : List CVargEntry}
    (hfixed : Forall₂ Boxes fixed argv1) (hvariadic : Forall₂ Boxes variadic argv2)
    (hprom : ∀ v ∈ variadic, v.type.isPromoted = true) (rt : Option CType)
    (union returned : BitVec 64) :
    CallFaithful pf mode c1 c2 fixed variadic argv1 argv2 rt union returned ↔
      Carriable fixed variadic rt returned := by
  have hloop1 := loop_iff hfixed c1 fun v _ e hve => by
    rw [← hve.carried.2]
    exact receive_argHelper hve.carried.1
  have hloop2 := loop_iff hvariadic c2 fun v hv e hve => by
    rw [← hve.carried.2]
    exact receive_varargHelper pf hve.carried.1 (hprom v hv)
  rw [CallFaithful, mode.replay_eq]
  constructor
  · rintro ⟨p, e, hcall, ⟨hp1, hp2⟩, he⟩
    simp only [call, Option.bind_eq_bind, Option.bind_eq_some_iff, Option.pure_def,
      Option.some.injEq, Prod.mk.injEq] at hcall
    obtain ⟨es1, hes1, es2, hes2, rfl, rfl⟩ := hcall
    obtain ⟨hfits1, hlt1⟩ := hloop1.mp ⟨es1, hes1, hp1⟩
    obtain ⟨hfits2, hlt2⟩ := hloop2.mp ⟨es2, hes2, hp2⟩
    exact ⟨hfits1, hfits2, (retValue_iff rt union returned).mp he, hlt1, hlt2⟩
  · intro h
    obtain ⟨es1, hes1, hp1⟩ := hloop1.mpr ⟨h.fixed_fits, h.fixed_length⟩
    obtain ⟨es2, hes2, hp2⟩ := hloop2.mpr ⟨h.variadic_fits, h.variadic_length⟩
    exact ⟨⟨es1.flatMap avcallArgHelper, es2.flatMap (avcallVarargHelper pf)⟩,
      storeReturn (retEntry rt union) returned, by rw [call, hes1, hes2]; rfl, ⟨hp1, hp2⟩,
      (retValue_iff rt union returned).mpr h.ret_fits⟩

/-! ## Formats -/

/-- The loop of `callFormatBox64` boxes what is stored. -/
theorem boxArgs_stored {vs : List Value} {args : List (BitVec 64)} (h : Forall₂ Stored vs args)
    {vargs : List CVargEntry} (hlen : vargs.length = vs.length) :
    ∃ es, boxArgs (vs.map fun v => typeCode v.type) vargs args = some es ∧
      Forall₂ Boxes vs es := by
  induction h generalizing vargs with
  | nil => exact ⟨[], by cases vargs <;> rfl, .nil⟩
  | @cons v arg vs args hv _ ih =>
      cases vargs with
      | nil => cases hlen
      | cons entry vargs =>
          obtain ⟨es, hes, hboxes⟩ := ih (Nat.succ.inj hlen)
          refine ⟨callFormatBox64ArgEntry (typeCode v.type) entry arg :: es, ?_,
            .cons (.code entry hv) hboxes⟩
          simp [boxArgs, hes]

theorem retEntry_eq (rt : Option CType) :
    callFormatBox64RetEntry ((rt.map typeCode).getD 'v') ⟨.void, 0#64⟩ = retEntry rt 0#64 := by
  cases rt with
  | none => rfl
  | some type => cases type <;> rfl

/-- The value `callFormatBox64` stores is the value of the return box. -/
theorem callFormatBox64Ret_iff (rt : Option CType) (union returned : BitVec 64) :
    callFormatBox64Ret (storeReturn (retEntry rt union) returned) = rt.map (retValue returned) ↔
      ∀ type ∈ rt, cvargValue type (storeReturn (retEntry rt union) returned) =
        retValue returned type := by
  cases rt with
  | none => simp [callFormatBox64Ret, storeReturn, retEntry, avcallStartHelper]
  | some type =>
      rw [callFormatBox64Ret_eq]
      simp

theorem call_ret {pf : Platform} {argc1 argc2 : Int} {argv1 argv2 : List CVargEntry}
    {ret e : CVargEntry} {returned : BitVec 64} {p : Passed}
    (h : call pf argc1 argv1 argc2 argv2 ret returned = some (p, e)) :
    e = storeReturn ret returned := by
  simp only [call, Option.bind_eq_bind, Option.bind_eq_some_iff, Option.pure_def,
    Option.some.injEq, Prod.mk.injEq] at h
  obtain ⟨_, _, _, _, _, rfl⟩ := h
  rfl

/-- `callFormatBox64` is a replay of the boxes it makes. -/
theorem box64Faithful_iff_call (pf : Platform) {fixed : List Value} {vargs : List CVargEntry}
    {args : List (BitVec 64)} (hargs : Forall₂ Stored fixed args)
    (hlen : vargs.length = fixed.length) (rt : Option CType) (returned : BitVec 64) :
    ∃ es, Forall₂ Boxes fixed es ∧ (Box64Faithful pf fixed vargs args rt returned ↔
      CallFaithful pf .call .given .given fixed [] es [] rt 0 returned) := by
  obtain ⟨es, hes, hboxes⟩ := boxArgs_stored hargs hlen
  refine ⟨es, hboxes, ?_⟩
  have hformat (p : Passed) (v : Option Value) :
      callFormatBox64 pf (box64Format rt fixed) vargs args true returned = some (p, v) ↔
        ∃ e, call pf (castInt fixed.length) es 0 [] (retEntry rt 0) returned = some (p, e) ∧
          callFormatBox64Ret e = v := by
    simp [callFormatBox64, box64Format, hes, retEntry_eq, Option.bind_eq_some_iff]
  constructor
  · rintro ⟨p, hcall, hp⟩
    obtain ⟨e, hcall, hret⟩ := (hformat p _).mp hcall
    obtain rfl := call_ret hcall
    exact ⟨p, _, hcall, hp, (callFormatBox64Ret_iff rt 0#64 returned).mp hret⟩
  · rintro ⟨p, e, hcall, hp, hret⟩
    obtain rfl := call_ret hcall
    exact ⟨p, (hformat p _).mpr ⟨_, hcall, (callFormatBox64Ret_iff rt 0#64 returned).mpr hret⟩,
      hp⟩

/-- The values arrive as they were and the returned value comes back, by whatever tables
they are boxed and in whatever way they are replayed, exactly if no `unsigned long` among
them needs more than 32 bits (and the counts are `int`s). -/
theorem replay_faithful_iff (pf : Platform) (fixed variadic : List Value)
    (hprom : ∀ v ∈ variadic, v.type.isPromoted = true) (rt : Option CType)
    (returned : BitVec 64) :
    (∀ (mode : Mode) (c1 c2 : Count) (argv1 argv2 : List CVargEntry) (union : BitVec 64),
      Forall₂ Boxes fixed argv1 → Forall₂ Boxes variadic argv2 →
        (CallFaithful pf mode c1 c2 fixed variadic argv1 argv2 rt union returned ↔
          Carriable fixed variadic rt returned)) ∧
      ∀ (vargs : List CVargEntry) (args : List (BitVec 64)), vargs.length = fixed.length →
        Forall₂ Stored fixed args →
          (Box64Faithful pf fixed vargs args rt returned ↔ Carriable fixed [] rt returned) := by
  constructor
  · intro mode c1 c2 argv1 argv2 union hfixed hvariadic
    exact callFaithful_iff pf mode c1 c2 hfixed hvariadic hprom rt union returned
  · intro vargs args hlen hargs
    obtain ⟨es, hboxes, hiff⟩ := box64Faithful_iff_call pf hargs hlen rt returned
    exact hiff.trans (callFaithful_iff pf .call .given .given hboxes .nil (by simp) rt 0 returned)

/-- An `int`, a `double` and a pointer, with a small `unsigned long` returned. -/
theorem replay_faithful_mixed :
    Carriable [⟨.int, 7⟩] [⟨.double, 0x3FF0000000000000⟩, ⟨.pointer, 4096⟩] (some .ulong) 5 ∧
      CallFaithful ⟨true, fun _ => 0⟩ .vcall .given (.sentinel 0 []) [⟨.int, 7⟩]
        [⟨.double, 0x3FF0000000000000⟩, ⟨.pointer, 4096⟩]
        [cvargGet (CVargEntry.ofType .void) ⟨.int, 7⟩]
        [Reader.box (0x3FF0000000000000 : BitVec 64) .double,
          Reader.box (4096 : BitVec 64) .pointer] (some .ulong) 0 5 := by
  have hcarriable : Carriable [⟨.int, 7⟩] [⟨.double, 0x3FF0000000000000⟩, ⟨.pointer, 4096⟩]
      (some .ulong) 5 :=
    ⟨by simp [Value.Fits], by simp [Value.Fits], by simp [Value.Fits, retValue, CType.width],
      by simp, by simp⟩
  refine ⟨hcarriable, ((replay_faithful_iff ⟨true, fun _ => 0⟩ _ _ (by decide) _ _).1 _ _ _ _ _ _
    (.cons (.get _ _) .nil) ?_).mpr hcarriable⟩
  exact .cons (.reader .double _) (.cons (.reader .pointer _) .nil)

/-- `2 ^ 32` passed as an `unsigned long` arrives as `0`. -/
theorem not_replay_faithful :
    ¬ ∀ (pf : Platform) (fixed : List Value) (argv1 : List CVargEntry),
      Forall₂ Boxes fixed argv1 →
        CallFaithful pf .call .given .given fixed [] argv1 [] none 0 0 := by
  intro h
  have hboxes : Forall₂ Boxes [⟨.ulong, 0x100000000⟩]
      [cvargGet (CVargEntry.ofType .void) ⟨.ulong, 0x100000000⟩] := .cons (.get _ _) .nil
  have hcarriable := (callFaithful_iff ⟨false, fun _ => 0⟩ .call .given .given hboxes .nil
    (by simp) none 0 0).mp (h _ _ _ hboxes)
  have hfits := hcarriable.fixed_fits _ List.mem_cons_self rfl
  exact absurd hfits (by decide)

end Lorelei.Variadic
