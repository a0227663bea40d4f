import Lorelei.TLC.FormatIdentity

/-!
# The arguments of a formatted call

A formatted call comes to the function with the arguments it was made with exactly if the
message gives the positions of the format string and of the variadic part and the types
cross (`argumentsReach_iff`). For the return value to come back too, its type must be read
back as itself.
-/

namespace Lorelei.TLC

open Support

section Format

variable {V : Type} {cc : Mode → Compiler} {rt : Runtime V} {pass : LibCFormatPass}
  {message : LibCFormatMessage} {pos : LibCFormatPass.Positions} {proc : ProcSnippet}
  {view : FunctionTypeView}

/-! ## Positions and boxes -/

theorem positions_of_bounds (hfmt : 1 ≤ message.fmtIdx)
    (hfmtLe : message.fmtIdx ≤ view.argTypes.length) (hvarg : 2 ≤ message.vargIdx)
    (hvargIdx : message.vargIdx = view.argTypes.length + if pass.hasVAList then 0 else 1) :
    ∃ pos, pass.positions message view = some pos := by
  have hname : ∀ i : Int, 0 ≤ i → i < view.argTypes.length →
      ∃ name, (LibCFormatPass.FI view).argumentName i = some name := by
    intro i hi hlt
    refine ⟨argName i.toNat, argumentName_eq_some.mpr ⟨hi, ?_⟩⟩
    rw [LibCFormatPass.FI, FunctionInfo.argNames_ofView, List.getElem?_map,
      List.getElem?_range (by omega)]
    rfl
  obtain ⟨formatName, hformat⟩ := hname (message.fmtIdx - 1) (by omega) (by omega)
  obtain ⟨lastArgToken, hlast⟩ := hname (message.vargIdx - 2) (by omega)
    (by split at hvargIdx <;> omega)
  have hfixed : message.vargIdx - 1 ≤ (LibCFormatPass.FI view).argNames.length := by
    rw [LibCFormatPass.FI, FunctionInfo.argNames_ofView, List.length_map, List.length_range]
    split at hvargIdx <;> omega
  simp only [LibCFormatPass.positions, hformat, hlast, SRC_fixedArgEntriesDecl, if_pos hfixed,
    LibCFormatPass.extractLine, Option.bind_eq_bind, Option.bind_some]
  split
  next hlist =>
    rw [if_pos hlist] at hvargIdx
    obtain ⟨list, hlist⟩ := hname (message.vargIdx - 1) (by omega) (by omega)
    rw [hlist]
    exact ⟨_, rfl⟩
  next => exact ⟨_, rfl⟩

theorem getElem?_argObjs {args : List V} {i : Nat} {t : QualType} {v : V}
    (ht : view.argTypes[i]? = some t) (hv : args[i]? = some v) :
    (argObjs view args)[i]? = some ⟨t, some v⟩ := by
  rw [argObjs, List.getElem?_zipWith, ht, hv]

/-- Without a record there is no run. -/
theorem recorded_of_runCall (hpos : pass.positions message view = some pos) (call : Invocation V)
    (hrun : (runCall cc (.format pass message) proc view rt call).isSome = true) :
    ∃ v, recorded (cc (senderMode proc.direction)) rt pass message (argObjs view call.args)
      call.tail = some v := by
  rw [runCall_format hpos, send, invoke_formatEntry (located_of_positions hpos)] at hrun
  split at hrun
  · obtain ⟨out, hout⟩ := Option.isSome_iff_exists.mp hrun
    obtain ⟨v, hv, -⟩ := Option.bind_eq_some_iff.mp hout
    exact ⟨v, hv⟩
  · cases hrun

/-- The boxes of the intended call are those of the fixed objects. -/
theorem zipWith_fixedTypes {β : Type} (f : QualType → V → β) (args : List V)
    (hlen : args.length = view.argTypes.length) :
    List.zipWith f (fixedTypes pass view) args =
      if pass.hasVAList then (List.zipWith f view.argTypes args).dropLast
      else List.zipWith f view.argTypes args := by
  rw [fixedTypes]
  split
  · generalize view.argTypes = types at hlen
    induction types generalizing args with
    | nil => simp
    | cons t types ih =>
        cases args with
        | nil => simp at hlen
        | cons v args =>
            have hlen' : args.length = types.length := by simpa using hlen
            cases types with
            | nil => simp_all
            | cons t' types =>
                cases args with
                | nil => simp at hlen'
                | cons v' args => simp [ih (v' :: args) hlen']
  · rfl

variable (pass view) in
theorem map_fixedObjs {β : Type} (f : QualType → Option V → β) (args : List V)
    (hlen : args.length = view.argTypes.length) :
    (fixedObjs pass (argObjs view args)).map (fun o => f o.type o.val) =
      List.zipWith (fun t v => f t (some v)) (fixedTypes pass view) args := by
  rw [zipWith_fixedTypes _ _ hlen, fixedObjs]
  split
  · rw [List.map_dropLast, argObjs, List.map_zipWith]
  · rw [argObjs, List.map_zipWith]

theorem boxes_iff {cc : Compiler} {t : QualType} :
    cc.Boxes t ↔ (boxType cc t).any fits = true := by
  rw [Compiler.Boxes, Option.any_eq_true]

/-- The fixed arguments are boxed as the function is to see them. -/
theorem map_boxOf_iff {r : Compiler} {args : List V} {count : Nat}
    (hlen : args.length = view.argTypes.length)
    (hcount : count ≤ (fixedObjs pass (argObjs view args)).length) :
    ((fixedObjs pass (argObjs view args)).take count).map (boxOf r) =
        List.zipWith (fun t v => ⟨typeID r t, some v⟩) (fixedTypes pass view) args ↔
      count = (fixedTypes pass view).length ∧ ∀ t ∈ fixedTypes pass view, r.Boxes t := by
  have htypes : (fixedObjs pass (argObjs view args)).map Obj.type = fixedTypes pass view :=
    map_type_fixedObjs (map_type_argObjs hlen)
  have hlength := congrArg List.length htypes
  rw [List.length_map] at hlength
  have hvals := map_fixedObjs pass view (fun _ v => v.isSome) args hlen
  rw [← map_fixedObjs pass view (fun t v => (⟨typeID r t, v⟩ : BoxedArg V)) args hlen]
  have hbox : ∀ o ∈ fixedObjs pass (argObjs view args),
      (boxOf r o = ⟨typeID r o.type, o.val⟩ ↔ r.Boxes o.type) := by
    intro o ho
    have hval : o.val.isSome = true := by
      have hmem : o.val.isSome ∈ (fixedObjs pass (argObjs view args)).map fun o => o.val.isSome :=
        List.mem_map_of_mem ho
      rw [hvals] at hmem
      obtain ⟨i, hi, hget⟩ := List.getElem_of_mem hmem
      rw [← hget, List.getElem_zipWith]
      rfl
    obtain ⟨v, hv⟩ := Option.isSome_iff_exists.mp hval
    rw [boxes_iff, boxOf, hv]
    simp
  rw [← htypes, List.forall_mem_map, List.length_map]
  constructor
  · intro h
    have hcountEq : count = (fixedObjs pass (argObjs view args)).length := by
      have hl := congrArg List.length h
      simp only [List.length_map, List.length_take] at hl
      omega
    refine ⟨hcountEq, fun o ho => (hbox o ho).mp ?_⟩
    rw [hcountEq, List.take_length] at h
    exact List.map_inj_left.mp h o ho
  · rintro ⟨rfl, h⟩
    rw [List.take_length]
    exact List.map_congr_left fun o ho => (hbox o ho).mpr (h o ho)

theorem intendedCall_format {r : Compiler} {call : Invocation V} {c : Call V} :
    (Builder.format pass message).intendedCall proc view r rt call = some c ↔
      1 ≤ message.fmtIdx ∧ ∃ fmt list, call.args[(message.fmtIdx - 1).toNat]? = some fmt ∧
        (if pass.hasVAList then call.tail = none ∧ call.args.getLast? = some list
          else call.tail = some list) ∧
        Call.boxed pass.callHelper (call.leadingVal proc)
          (List.zipWith (fun t v => ⟨typeID r t, some v⟩) (fixedTypes pass view) call.args)
          (some (rt.extract pass.formatStyle fmt list))
          (if view.returnType.isVoidType then .void else typeID r view.returnType) = c := by
  simp only [Builder.intendedCall, Option.bind_eq_some_iff, Option.map_eq_some_iff,
    LibCFormatMessage.formatArg, LibCFormatPass.listArg]
  constructor
  · rintro ⟨fmt, hfmt, list, hlist, hc⟩
    obtain ⟨hone, hfmt⟩ := Option.ite_none_right_eq_some.mp hfmt
    refine ⟨hone, fmt, list, hfmt, ?_, hc⟩
    split at hlist
    · obtain ⟨hnone, hlast⟩ := Option.ite_none_right_eq_some.mp hlist
      rw [if_pos ‹_›]
      exact ⟨Option.isNone_iff_eq_none.mp hnone, hlast⟩
    · rw [if_neg ‹_›]
      exact hlist
  · rintro ⟨hone, fmt, list, hfmt, hlist, hc⟩
    refine ⟨fmt, by rw [if_pos hone, hfmt], list, ?_, hc⟩
    split at hlist
    · rw [if_pos ‹_›, hlist.1]
      exact hlist.2
    · rw [if_neg ‹_›]
      exact hlist

/-! ## When the arguments reach the function -/

/-- Every call of the sender's Entry comes to one call of the function, with boxes of the
fixed arguments in front and behind them what the format string makes of the variadic
part. -/
def ArgumentsReach (cc : Mode → Compiler) (pass : LibCFormatPass) (message : LibCFormatMessage)
    (proc : ProcSnippet) (view : FunctionTypeView) : Prop :=
  ∀ (V : Type) (rt : Runtime V) (call : Invocation V), call.args.length = view.argTypes.length →
    call.tail.isSome = view.isVariadic →
      1 ≤ message.fmtIdx ∧ ∃ fmt list, call.args[(message.fmtIdx - 1).toNat]? = some fmt ∧
        (if pass.hasVAList then call.tail = none ∧ call.args.getLast? = some list
          else call.tail = some list) ∧
        ∃ out type, runCall cc (.format pass message) proc view rt call = some out ∧
          out.calls = [.boxed pass.callHelper (call.leadingVal proc)
            (List.zipWith (fun t v => ⟨typeID (cc (receiverMode proc.direction)) t, some v⟩)
              (fixedTypes pass view) call.args)
            (some (rt.extract pass.formatStyle fmt list)) type]

/-- Both compilers read the types that cross as themselves, and the fixed arguments have
types that boxes carry. The return type is read as some type that comes out of a box. -/
structure FormatTypes (s r : Compiler) (pass : LibCFormatPass) (proc : ProcSnippet)
    (view : FunctionTypeView) : Prop where
  list : pass.hasVAList = true → view.argTypes.getLast? = some s.vaListType
  args : ∀ t ∈ view.argTypes, s.Declares t
  fixed : ∀ t ∈ fixedTypes pass view, r.Declares t ∧ r.Unpacks t ∧ r.Boxes t
  vargs : s.Declares cvargEntryPtrType ∧ r.Declares cvargEntryPtrType ∧ r.Unpacks cvargEntryPtrType
  callback : proc.isFunction = false → s.Declares pVoidType ∧ r.Declares pVoidType
  ret : view.returnType.isVoidType = false →
    s.retType view.returnType = some (r.resultType view.returnType) ∧
      r.retType view.returnType = some (r.resultType view.returnType) ∧
      r.castType (getTypeString r.getAsString (.pointerTo view.returnType)) =
        some (r.resultType view.returnType) ∧
      r.varType (getTypeString r.getAsString view.returnType) =
        some (r.resultType view.returnType) ∧
      (unboxed (r.resultType view.returnType) (some ())).isSome = true

/-- The message gives the positions of the format string and of the variadic part, and the
types cross. -/
structure FormatPacks (s r : Compiler) (pass : LibCFormatPass) (message : LibCFormatMessage)
    (proc : ProcSnippet) (view : FunctionTypeView) : Prop extends
    FormatTypes s r pass proc view where
  variadic : view.isVariadic = !pass.hasVAList
  vargIdx : message.vargIdx = view.argTypes.length + if pass.hasVAList then 0 else 1
  two_le : 2 ≤ message.vargIdx
  one_le : 1 ≤ message.fmtIdx
  format : ∃ t, view.argTypes[(message.fmtIdx - 1).toNat]? = some t ∧ IsFormatString t

/-- Without positions there are no layers. -/
theorem positions_of_runCall (call : Invocation V) {out : Outcome V}
    (hrun : runCall cc (.format pass message) proc view rt call = some out) :
    ∃ pos, pass.positions message view = some pos := by
  rw [runCall, Option.bind_eq_bind, Option.bind_eq_some_iff] at hrun
  obtain ⟨sender, hsender, -⟩ := hrun
  obtain ⟨pos, hpos, -⟩ := Option.map_eq_some_iff.mp hsender
  exact ⟨pos, hpos⟩

/-- A call with arguments of no particular value. -/
def blankCall (view : FunctionTypeView) : Invocation Unit :=
  ⟨List.replicate view.argTypes.length (), if view.isVariadic then some () else none, ()⟩

theorem length_blankCall : (blankCall view).args.length = view.argTypes.length :=
  List.length_replicate ..

theorem tail_blankCall : (blankCall view).tail.isSome = view.isVariadic := by
  rw [blankCall]
  cases view.isVariadic <;> rfl

/-- What every call asks for is what the message and the types are like. -/
theorem packs_of_argumentsReach (h : ArgumentsReach cc pass message proc view) :
    FormatPacks (cc (senderMode proc.direction)) (cc (receiverMode proc.direction)) pass message
      proc view := by
  let call := blankCall view
  have hlen : call.args.length = view.argTypes.length := length_blankCall
  have htail : call.tail.isSome = view.isVariadic := tail_blankCall
  let rt : Runtime Unit := ⟨fun _ _ _ => (), fun _ => ()⟩
  obtain ⟨hone, fmt, list, hfmt, hlist, out, type, hrun, hcall⟩ := h Unit rt call hlen htail
  obtain ⟨pos, hpos⟩ := positions_of_runCall call hrun
  have hlocated := located_of_positions hpos
  obtain ⟨v, hrec⟩ := recorded_of_runCall hpos call (by rw [hrun]; rfl)
  have hcomes := comes_runCall_format hpos call hlen htail hrec
  have hcond := hcomes.cond_of_isSome (by rw [hrun]; rfl)
  obtain rfl := Option.some.inj ((hcomes.eq_some hcond).symm.trans hrun)
  obtain ⟨⟨hdeclares, ⟨hlayer, hcallback⟩, hsret⟩, hunpacks, ⟨hlayer', hcallback'⟩,
    ⟨-, hrret, hunboxes⟩, hunpacksRet⟩ := hcond
  obtain ⟨o, _, ho, hformat, -, hap⟩ := recorded_eq_some hrec
  -- the boxes
  have hboxes := (List.cons.inj hcall).1
  rw [formattedCall, boxedCall] at hboxes
  injection hboxes with _ _ hfixed _ _
  obtain ⟨hcount, hboxed⟩ := (map_boxOf_iff hlen (fixedCount_le hrec)).mp hfixed
  have hargs : ∀ i : Nat, (argObjs view call.args)[i]?.map Obj.type = view.argTypes[i]? := by
    intro i
    rw [← List.getElem?_map, map_type_argObjs hlen]
  have hfixedCount : message.vargIdx - 1 = (fixedTypes pass view).length := by
    have hvargIdx := hlocated.vargIdx
    rw [LibCFormatMessage.fixedCount] at hcount
    omega
  have hlength : (fixedTypes pass view).length =
      if pass.hasVAList then view.argTypes.length - 1 else view.argTypes.length := by
    rw [fixedTypes]
    split
    · exact List.length_dropLast
    · rfl
  refine {
    list := fun hva => ?_
    variadic := ?_
    vargIdx := ?_
    two_le := hlocated.vargIdx
    one_le := hone
    format := ⟨o.type, by rw [← hargs, ho]; rfl, hformat⟩
    args := hdeclares
    fixed := fun t ht => ⟨hlayer' t (List.mem_append_left _ ht),
      hunpacks t (List.mem_append_left _ ht), hboxed t ht⟩
    vargs := ⟨hlayer _ (by simp), hlayer' _ (by simp), hunpacks _ (by simp)⟩
    callback := fun hfun => ⟨hcallback hfun, hcallback' hfun⟩
    ret := fun hvoid => ⟨hsret hvoid, hrret hvoid, hunpacksRet hvoid, hunboxes hvoid⟩ }
  · rw [if_pos hva] at hap hlength
    obtain ⟨ap, hap, htype, -⟩ := hap
    rw [List.getLast?_eq_getElem?, ← hlength, ← hcount, ← hargs, hap, ← htype]
    rfl
  · rw [← htail]
    split at hlist
    next hva => rw [hlist.1, hva]; rfl
    next hva => rw [hlist, Bool.eq_false_iff.mpr hva]; rfl
  · split at hap
    next hva =>
      obtain ⟨ap, hap, -⟩ := hap
      have hlt := (List.getElem?_eq_some_iff.mp hap).1
      rw [argObjs, List.length_zipWith, hlen, min_self] at hlt
      rw [if_pos hva] at hlength ⊢
      omega
    next hva =>
      rw [if_neg hva] at hlength ⊢
      omega

variable (rt) in
/-- The Entry of the sender finds the format string and the variadic part. -/
theorem recorded_of_packs {s r : Compiler} (h : FormatPacks s r pass message proc view)
    (call : Invocation V) (hlen : call.args.length = view.argTypes.length)
    (htail : call.tail.isSome = view.isVariadic) :
    ∃ fmt list, call.args[(message.fmtIdx - 1).toNat]? = some fmt ∧
      (if pass.hasVAList then call.tail = none ∧ call.args.getLast? = some list
        else call.tail = some list) ∧
      recorded s rt pass message (argObjs view call.args) call.tail =
        some (some (rt.extract pass.formatStyle fmt list)) := by
  obtain ⟨tformat, htformat, hformat⟩ := h.format
  have hfmtLt := (List.getElem?_eq_some_iff.mp htformat).1
  have hvargIdx := h.vargIdx
  have htwo := h.two_le
  have hobjsLen : (argObjs view call.args).length = view.argTypes.length := by
    rw [argObjs, List.length_zipWith, hlen, min_self]
  obtain ⟨fmt, hfmt⟩ : ∃ fmt, call.args[(message.fmtIdx - 1).toNat]? = some fmt :=
    ⟨_, List.getElem?_eq_getElem (by omega)⟩
  have hfmtVal : (argObjs view call.args)[(message.fmtIdx - 1).toNat]?.bind Obj.formatString =
      some fmt := by
    rw [getElem?_argObjs htformat hfmt]
    exact formatString_eq_some.mpr ⟨hformat, rfl⟩
  rw [h.variadic] at htail
  cases hva : pass.hasVAList with
  | true =>
      rw [hva, if_pos rfl] at hvargIdx
      have hlast := h.list hva
      rw [List.getLast?_eq_getElem?] at hlast
      obtain ⟨list, hlist⟩ : ∃ list, call.args[view.argTypes.length - 1]? = some list :=
        ⟨_, List.getElem?_eq_getElem (by omega)⟩
      have hnone : call.tail = none := by
        rw [hva] at htail
        exact Option.isNone_iff_eq_none.mp (Option.isSome_eq_false_iff.mp htail)
      refine ⟨fmt, list, hfmt, ?_, ?_⟩
      · rw [if_pos rfl, List.getLast?_eq_getElem?, hlen]
        exact ⟨hnone, hlist⟩
      · have hidx : (message.vargIdx - 1).toNat = view.argTypes.length - 1 := by omega
        rw [recorded, hfmtVal, hidx, getElem?_argObjs hlast hlist, hva]
        simp
  | false =>
      rw [hva, if_neg Bool.false_ne_true] at hvargIdx
      obtain ⟨list, hlist⟩ : ∃ list, call.tail = some list := by
        rw [hva] at htail
        exact Option.isSome_iff_exists.mp htail
      refine ⟨fmt, list, hfmt, hlist, ?_⟩
      have hidx : message.vargIdx - 1 = (argObjs view call.args).length := by omega
      rw [recorded, hfmtVal, hlist, hva]
      simp [hidx]

theorem mem_of_mem_fixedTypes {t : QualType} (h : t ∈ fixedTypes pass view) :
    t ∈ view.argTypes := by
  rw [fixedTypes] at h
  split at h
  · exact List.mem_of_mem_dropLast h
  · exact h

theorem FormatPacks.fixedCount_eq {s r : Compiler}
    (h : FormatPacks s r pass message proc view) :
    message.fixedCount = (fixedTypes pass view).length := by
  have hvargIdx := h.vargIdx
  rw [LibCFormatMessage.fixedCount, fixedTypes]
  split at hvargIdx
  next hva =>
    rw [if_pos hva, List.length_dropLast]
    omega
  next hva =>
    rw [if_neg hva]
    omega

theorem positions_of_packs {s r : Compiler} (h : FormatPacks s r pass message proc view) :
    ∃ pos, pass.positions message view = some pos := by
  obtain ⟨tformat, htformat, -⟩ := h.format
  have hfmtLt := (List.getElem?_eq_some_iff.mp htformat).1
  have hone := h.one_le
  exact positions_of_bounds hone (by omega) h.two_le h.vargIdx

/-- The run of a call whose types cross. -/
theorem runCall_of_packs (h : FormatPacks (cc (senderMode proc.direction))
    (cc (receiverMode proc.direction)) pass message proc view) (rt : Runtime V)
    (call : Invocation V) (hlen : call.args.length = view.argTypes.length)
    (htail : call.tail.isSome = view.isVariadic) :
    ∃ fmt list c, call.args[(message.fmtIdx - 1).toNat]? = some fmt ∧
      (if pass.hasVAList then call.tail = none ∧ call.args.getLast? = some list
        else call.tail = some list) ∧
      Call.boxed pass.callHelper (call.leadingVal proc)
          (List.zipWith (fun t v => ⟨typeID (cc (receiverMode proc.direction)) t, some v⟩)
            (fixedTypes pass view) call.args)
          (some (rt.extract pass.formatStyle fmt list))
          (if view.returnType.isVoidType then .void else typeID (cc (receiverMode proc.direction))
            ((cc (receiverMode proc.direction)).resultType view.returnType)) = c ∧
      runCall cc (.format pass message) proc view rt call = some ⟨[c], resultObj view.returnType
        ((cc (receiverMode proc.direction)).resultType view.returnType)
        (unboxedResult (cc (receiverMode proc.direction)) view (rt.owner c))⟩ := by
  obtain ⟨pos, hpos⟩ := positions_of_packs h
  obtain ⟨fmt, list, hfmt, hlist, hrec⟩ := recorded_of_packs rt h call hlen htail
  have hbox := (map_boxOf_iff hlen (fixedCount_le hrec)).mpr
    ⟨h.fixedCount_eq, fun t ht => (h.fixed t ht).2.2⟩
  have hcond : FormatSends (cc (senderMode proc.direction)) pass proc view
        ((cc (receiverMode proc.direction)).resultType view.returnType) ∧
      FormatReceives (cc (receiverMode proc.direction)) pass message proc view := by
    refine ⟨⟨h.args, ⟨?_, fun hfun => (h.callback hfun).1⟩, fun hvoid => (h.ret hvoid).1⟩, ?_,
      ⟨?_, fun hfun => (h.callback hfun).2⟩, ⟨?_, fun hvoid => (h.ret hvoid).2.1,
        fun hvoid => (h.ret hvoid).2.2.2⟩, fun hvoid => (h.ret hvoid).2.2.1⟩
    · rw [List.forall_mem_append, List.forall_mem_singleton]
      exact ⟨fun t ht => h.args t (mem_of_mem_fixedTypes ht), h.vargs.1⟩
    · rw [List.forall_mem_append, List.forall_mem_singleton]
      exact ⟨fun t ht => (h.fixed t ht).2.1, h.vargs.2.2⟩
    · rw [List.forall_mem_append, List.forall_mem_singleton]
      exact ⟨fun t ht => (h.fixed t ht).1, h.vargs.2.1⟩
    · intro t ht
      obtain ⟨c, hc, -⟩ := (h.fixed t (List.mem_of_mem_take ht)).2.2
      rw [hc]
      rfl
  refine ⟨fmt, list, _, hfmt, hlist, rfl, ?_⟩
  rw [(comes_runCall_format hpos call hlen htail hrec).eq_some hcond, formattedCall, boxedCall,
    hbox]

/-- The arguments of every call reach the function exactly if the message gives the
positions and the types cross. -/
theorem argumentsReach_iff :
    ArgumentsReach cc pass message proc view ↔ FormatPacks (cc (senderMode proc.direction))
      (cc (receiverMode proc.direction)) pass message proc view := by
  refine ⟨packs_of_argumentsReach, fun h V rt call hlen htail => ?_⟩
  obtain ⟨fmt, list, c, hfmt, hlist, hc, hrun⟩ := runCall_of_packs h rt call hlen htail
  exact ⟨h.one_le, fmt, list, hfmt, hlist, _, _, hrun, by rw [hc]⟩

/-! ## When calls are carried -/

/-- The arguments reach the function and the result comes back as itself. -/
theorem carries_iff_packs {s r : Compiler} : FormatCarries s r pass message proc view ↔
    FormatPacks s r pass message proc view ∧ (view.returnType.isVoidType = false →
      r.resultType view.returnType = view.returnType ∧
        unboxed view.returnType (some ()) = some (some ())) := by
  constructor
  · intro h
    have hresult : view.returnType.isVoidType = false →
        r.resultType view.returnType = view.returnType := by
      intro hvoid
      rw [Compiler.resultType, (h.ret hvoid).2.1]
      rfl
    refine ⟨{
      variadic := h.variadic
      vargIdx := h.vargIdx
      two_le := h.two_le
      one_le := h.one_le
      format := h.format
      list := h.list
      args := h.args
      fixed := h.fixed
      vargs := h.vargs
      callback := h.callback
      ret := fun hvoid => ?_ }, fun hvoid => ⟨hresult hvoid, (h.ret hvoid).2.2.2.2⟩⟩
    obtain ⟨hs, hr, hunpacks, hvar, hunboxed⟩ := h.ret hvoid
    rw [hresult hvoid, hunboxed]
    exact ⟨hs, hr, hunpacks, hvar, rfl⟩
  · rintro ⟨h, hback⟩
    refine {
      variadic := h.variadic
      vargIdx := h.vargIdx
      two_le := h.two_le
      one_le := h.one_le
      format := h.format
      list := h.list
      args := h.args
      fixed := h.fixed
      vargs := h.vargs
      callback := h.callback
      ret := fun hvoid => ?_ }
    obtain ⟨hs, hr, hunpacks, hvar, -⟩ := h.ret hvoid
    obtain ⟨hresult, hunboxed⟩ := hback hvoid
    rw [hresult] at hs hr hunpacks hvar
    exact ⟨hs, hr, hunpacks, hvar, hunboxed⟩

theorem carries_of_composes (h : Composes cc (.format pass message) proc view) :
    FormatCarries (cc (senderMode proc.direction)) (cc (receiverMode proc.direction)) pass message
      proc view := by
  obtain ⟨-, hidentity⟩ := h
  have hreach : ArgumentsReach cc pass message proc view := by
    intro V rt call hlen htail
    obtain ⟨c, hc, hrun⟩ := hidentity V rt call hlen htail
    obtain ⟨hone, fmt, list, hfmt, hlist, rfl⟩ := intendedCall_format.mp hc
    exact ⟨hone, fmt, list, hfmt, hlist, _, _, hrun, rfl⟩
  have hpacks := packs_of_argumentsReach hreach
  refine carries_iff_packs.mpr ⟨hpacks, fun hvoid => ?_⟩
  let rt : Runtime Unit := ⟨fun _ _ _ => (), fun _ => ()⟩
  obtain ⟨c, -, hrun⟩ := hidentity Unit rt (blankCall view) length_blankCall tail_blankCall
  obtain ⟨_, _, c', -, -, -, hrun'⟩ :=
    runCall_of_packs hpacks rt (blankCall view) length_blankCall tail_blankCall
  have hret := congrArg Outcome.ret (Option.some.inj (hrun'.symm.trans hrun))
  simp only [resultObj, hvoid, Bool.false_eq_true, if_false, Option.some.injEq,
    Obj.mk.injEq] at hret
  obtain ⟨hresult, hval⟩ := hret
  rw [unboxedResult, hresult, Option.join_eq_some_iff] at hval
  exact ⟨hresult, hval⟩

theorem composes_of_carries (h : FormatCarries (cc (senderMode proc.direction))
    (cc (receiverMode proc.direction)) pass message proc view) :
    Composes cc (.format pass message) proc view := by
  obtain ⟨hpacks, hback⟩ := carries_iff_packs.mp h
  obtain ⟨pos, hpos⟩ := positions_of_packs hpacks
  let s := cc (senderMode proc.direction)
  let r := cc (receiverMode proc.direction)
  refine ⟨⟨LibCFormatPass.sender s.getAsString pass proc view pos,
    LibCFormatPass.receiver r.getAsString pass proc view pos, ?_, ?_,
    wired_format (located_of_positions hpos)⟩, ?_⟩
  · simp [Builder.beginHandleProc, LibCFormatPass.beginHandleProc, hpos, isSender_senderMode, s]
  · simp [Builder.beginHandleProc, LibCFormatPass.beginHandleProc, hpos, isSender_receiverMode, r]
  intro V rt call hlen htail
  obtain ⟨fmt, list, c, hfmt, hlist, hc, hrun⟩ := runCall_of_packs hpacks rt call hlen htail
  refine ⟨c, intendedCall_format.mpr ⟨hpacks.one_le, fmt, list, hfmt, hlist, ?_⟩, ?_⟩
  · rw [← hc]
    obtain hvoid | hvoid := view.returnType.isVoidType.eq_false_or_eq_true
    · rw [if_pos hvoid, if_pos hvoid]
    · rw [(hback hvoid).1]
  · rw [hrun, resultObj]
    obtain hvoid | hvoid := view.returnType.isVoidType.eq_false_or_eq_true
    · rw [if_pos hvoid, if_pos hvoid]
    · obtain ⟨hresult, hunboxed⟩ := hback hvoid
      rw [unboxedResult, hresult, unboxed_some, hunboxed]
      rfl

end Format

end Lorelei.TLC
