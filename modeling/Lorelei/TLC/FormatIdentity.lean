import Lorelei.TLC.LayerIdentity

/-!
# The layers of a formatted call

The same for the builders of formatted calls, whose layers carry the fixed arguments and a
pack of the variadic part, and whose last layer calls the function with boxes.
-/

namespace Lorelei.TLC

open Support Environment

/-! ## Boxes -/

section Boxes

variable {V : Type} {cc : Compiler} {rt : Runtime V} {t : QualType}

/-- The entry that an object is boxed in, if its type has one. -/
def boxOf (cc : Compiler) (o : Obj V) : BoxedArg V :=
  ⟨typeID cc o.type, if (boxType cc o.type).any fits then o.val else none⟩

theorem cvargGet_eq (o : Obj V) :
    cvargGet cc o = if (boxType cc o.type).isSome then some (boxOf cc o) else none := by
  rw [cvargGet, boxOf, typeID]
  cases boxType cc o.type <;> simp

variable (cc) in
/-- All objects are boxed if all types have boxes. -/
theorem comes_boxes (objs : List (Obj V)) :
    Comes (objs.mapM (cvargGet cc)) (∀ t ∈ objs.map Obj.type, (boxType cc t).isSome = true)
      (objs.map (boxOf cc)) := by
  induction objs with
  | nil => exact ⟨fun _ => rfl, fun h => (h (by simp)).elim⟩
  | cons o objs ih =>
      rw [List.mapM_cons, cvargGet_eq]
      constructor
      · intro h
        obtain ⟨ho, hobjs⟩ := List.forall_mem_cons.mp h
        rw [if_pos ho, ih.eq_some hobjs]
        rfl
      · intro h
        by_cases ho : (boxType cc o.type).isSome = true
        · rw [if_pos ho, ih.eq_none fun hobjs => h (List.forall_mem_cons.mpr ⟨ho, hobjs⟩)]
          rfl
        · rw [if_neg ho]
          rfl

theorem unboxed_map {α β : Type} (f : α → β) (held : Option α) :
    unboxed t (held.map f) = (unboxed t held).map (Option.map f) := by
  cases t with
  | builtin quals kind =>
      cases kind <;> simp only [unboxed, Option.map_some, Option.map_none, Option.map_map]
      all_goals
        cases ctypeOf _ with
        | none => rfl
        | some c =>
            simp only [Option.map_some, Function.comp_apply]
            split <;> rfl
  | pointer quals pointee =>
      simp only [unboxed]
      split <;> rfl
  | _ => rfl

/-- What comes out of a box depends on the type only. -/
theorem unboxed_some (x : V) :
    unboxed t (some x) = (unboxed t (some ())).map (Option.map fun _ => x) := by
  rw [← unboxed_map]
  rfl

end Boxes

/-! ## The receiver -/

/-- The variable `vargs`. -/
abbrev packedObj {V : Type} (v : Option V) : Obj V := ⟨cvargEntryPtrType, v⟩

section Receiver

variable {V : Type} {r : Compiler} {rt : Runtime V} {lastCallback : V} {pass : LibCFormatPass}
  {message : LibCFormatMessage} {pos : LibCFormatPass.Positions} {proc : ProcSnippet}
  {view : FunctionTypeView} {callback vargs : Obj V} {fixed : List (Obj V)} {T : QualType}

/-- The types in front of the variadic part. -/
def fixedTypes (pass : LibCFormatPass) (view : FunctionTypeView) : List QualType :=
  if pass.hasVAList then view.argTypes.dropLast else view.argTypes

/-- The number of arguments that the message counts in front of the variadic part. -/
def LibCFormatMessage.fixedCount (message : LibCFormatMessage) : Nat := (message.vargIdx - 1).toNat

theorem map_fst_arguments_NFI :
    (pass.NFI view).arguments.map Prod.fst = fixedTypes pass view ++ [cvargEntryPtrType] := by
  rw [LibCFormatPass.NFI, List.map_append, fixedTypes]
  split
  · rw [List.map_dropLast, LibCFormatPass.FI, FunctionInfo.map_fst_arguments_ofView]
    rfl
  · rw [LibCFormatPass.FI, FunctionInfo.map_fst_arguments_ofView]
    rfl

/-- The type that the receiver's text of the return type is read as. -/
def Compiler.resultType (cc : Compiler) (returnType : QualType) : QualType :=
  (cc.retType returnType).getD returnType

/-- The call that the last layer makes. -/
def boxedCall (r : Compiler) (pass : LibCFormatPass) (message : LibCFormatMessage)
    (view : FunctionTypeView) (callback : Option V) (fixed : List (Obj V)) (vargs : Option V) :
    Call V :=
  .boxed pass.callHelper callback ((fixed.take message.fixedCount).map (boxOf r)) vargs
    (if view.returnType.isVoidType then .void else typeID r (r.resultType view.returnType))

/-- The value that the last layer takes out of the box that a value came in. -/
def unboxedResult (r : Compiler) (view : FunctionTypeView) (x : V) : Option V :=
  (unboxed (r.resultType view.returnType) (some x)).join

/-- What the last layer asks for. -/
def BoxedCalls (r : Compiler) (pass : LibCFormatPass) (message : LibCFormatMessage)
    (view : FunctionTypeView) : Prop :=
  (∀ t ∈ (fixedTypes pass view).take message.fixedCount, (boxType r t).isSome = true) ∧
    r.RetOk view.returnType (r.resultType view.returnType) ∧
      (view.returnType.isVoidType = false →
        r.varType (getTypeString r.getAsString view.returnType) =
            some (r.resultType view.returnType) ∧
          (unboxed (r.resultType view.returnType) (some ())).isSome = true)

theorem comes_boxedReturn {callback : Option V} {vargs : Option V}
    (htypes : fixed.map Obj.type = fixedTypes pass view) :
    Comes (boxedReturn r rt pass.callHelper view.returnType callback (fixed.take message.fixedCount)
        vargs)
      (BoxedCalls r pass message view)
      ⟨[boxedCall r pass message view callback fixed vargs],
        resultObj view.returnType (r.resultType view.returnType) (unboxedResult r view
          (rt.owner (boxedCall r pass message view callback fixed vargs)))⟩ := by
  have hboxes := comes_boxes r (fixed.take message.fixedCount)
  rw [List.map_take, htypes] at hboxes
  rw [boxedReturn, BoxedCalls]
  constructor
  · rintro ⟨hbox, hok, hunbox⟩
    rw [hboxes.eq_some hbox]
    obtain hvoid | hvoid := view.returnType.isVoidType.eq_false_or_eq_true
    · simp [hvoid, boxedCall, resultObj]
    · obtain ⟨hvar, hsome⟩ := hunbox hvoid
      obtain ⟨w, hw⟩ := Option.isSome_iff_exists.mp hsome
      have hunboxed : ∀ x : V, unboxed (r.resultType view.returnType) (some x) =
          some (w.map fun _ => x) := fun x => by rw [unboxed_some, hw, Option.map_some]
      simp [hvoid, hok hvoid, hvar, hunboxed, boxedCall, resultObj, unboxedResult]
  · intro hnot
    by_cases hbox : ∀ t ∈ (fixedTypes pass view).take message.fixedCount,
        (boxType r t).isSome = true
    · rw [hboxes.eq_some hbox]
      obtain hvoid | hvoid := view.returnType.isVoidType.eq_false_or_eq_true
      · exact (hnot ⟨hbox, of_isVoidType hvoid, of_isVoidType hvoid⟩).elim
      · cases ht : r.retType view.returnType with
        | none => simp [hvoid]
        | some t =>
            have hresult : r.resultType view.returnType = t := by rw [Compiler.resultType, ht]; rfl
            cases hvar : r.varType (getTypeString r.getAsString view.returnType) with
            | none => simp [hvoid]
            | some t' =>
                simp only [Option.bind_eq_bind, Option.bind_some, hvoid, Bool.false_eq_true,
                  if_false]
                rw [unboxed_some]
                cases hw : unboxed t' (some ()) with
                | none => rfl
                | some w =>
                    have hne : t ≠ t' := by
                      rintro rfl
                      refine hnot ⟨hbox, fun _ => by rw [ht, hresult], fun _ => ?_⟩
                      rw [hresult, hvar, hw]
                      exact ⟨rfl, rfl⟩
                    simp [hne]
    · rw [hboxes.eq_none hbox]
      rfl

theorem namesApart_LNFI : NamesApart (proc.layerInfo (pass.NFI view)) :=
  namesApart_layerInfo proc namesApart_NFI callbackName_notMem_NFI

/-- What the receiver's side asks for. -/
def FormatReceives (r : Compiler) (pass : LibCFormatPass) (message : LibCFormatMessage)
    (proc : ProcSnippet) (view : FunctionTypeView) : Prop :=
  (∀ t ∈ fixedTypes pass view ++ [cvargEntryPtrType], r.Unpacks t) ∧
    r.DeclaresLayer proc (fixedTypes pass view ++ [cvargEntryPtrType]) ∧
      BoxedCalls r pass message view ∧
        r.UnpacksRet view.returnType (r.resultType view.returnType)

/-- The Caller of the receiver. -/
theorem comes_boxedCaller {v : Option V} {link : Linkage V} (h : Located pass message view pos)
    (htypes : fixed.map Obj.type = fixedTypes pass view) (hcallback : callback.type = pVoidType)
    (hcount : message.fixedCount ≤ fixed.length) :
    Comes (invoke r rt lastCallback
      (LibCFormatPass.receiver r.getAsString pass proc view pos).caller
        link (leading proc callback ++ (fixed ++ [packedObj v])) none)
      (r.DeclaresLayer proc ((pass.NFI view).arguments.map Prod.fst) ∧
        BoxedCalls r pass message view)
      ⟨[boxedCall r pass message view ((leading proc callback).head?.bind Obj.val) fixed v],
        resultObj view.returnType (r.resultType view.returnType) (unboxedResult r view (rt.owner
          (boxedCall r pass message view
            ((leading proc callback).head?.bind Obj.val) fixed v)))⟩ := by
  have htypes' : (fixed ++ [packedObj v]).map Obj.type =
      (pass.NFI view).arguments.map Prod.fst := by
    rw [map_fst_arguments_NFI, List.map_append, htypes]
    rfl
  rw [invoke_boxedCaller h hcount]
  exact (comes_boxedReturn htypes).guard (accepts_layerInfo r proc htypes' hcallback)

variable (r rt lastCallback proc) in
theorem comes_receive_format (v : Option V) (h : Located pass message view pos)
    (htypes : fixed.map Obj.type = fixedTypes pass view) (hcallback : callback.type = pVoidType)
    (hcount : message.fixedCount ≤ fixed.length) (ret : Option (Obj V)) :
    Comes (receive r rt lastCallback proc view
        (LibCFormatPass.receiver r.getAsString pass proc view pos)
        (leading proc callback).head? (fixed ++ [packedObj v]) ret)
      (FormatReceives r pass message proc view ∧
        TakesResult view.returnType (r.resultType view.returnType) ret)
      ([boxedCall r pass message view ((leading proc callback).head?.bind Obj.val) fixed v],
        retAfter view.returnType (r.resultType view.returnType) ret (unboxedResult r view (rt.owner
          (boxedCall r pass message view
            ((leading proc callback).head?.bind Obj.val) fixed v)))) := by
  have htypes' : (fixed ++ [packedObj v]).map Obj.type =
      (pass.NFI view).arguments.map Prod.fst := by
    rw [map_fst_arguments_NFI, List.map_append, htypes]
    rfl
  have haccepts := accepts_layerInfo r proc htypes' hcallback
  have hcaller : Comes (receiverCaller r rt lastCallback proc view
      (LibCFormatPass.receiver r.getAsString pass proc view pos)
      (leading proc callback ++ (fixed ++ [packedObj v]))) _ _ :=
    comes_boxedCaller h htypes hcallback hcount
  have hadapt : Comes (receiverAdapt r rt lastCallback proc view
      (LibCFormatPass.receiver r.getAsString pass proc view pos)
      (leading proc callback ++ (fixed ++ [packedObj v]))) _ _ :=
    comes_passThrough (.ofView view) namesApart_LNFI returnType_layerInfo haccepts hcaller
  have hentry : Comes (receive r rt lastCallback proc view
      (LibCFormatPass.receiver r.getAsString pass proc view pos) (leading proc callback).head?
        (fixed ++ [packedObj v]) ret) _ _ :=
    comes_unpackingEntry (pass.NFI view) namesApart_LNFI callbackName_notMem_NFI htypes'
      hadapt
  refine hentry.congr ?_
  rw [FormatReceives, BoxedCalls, map_fst_arguments_NFI]
  show (_ ∧ (_ ∧ (_ ∧ _) ∧ r.RetOk view.returnType _) ∧ r.UnpacksRet view.returnType _) ∧
    TakesResult view.returnType _ ret ↔ _
  tauto

end Receiver

/-! ## The sender -/

section Sender

variable {V : Type} {s : Compiler} {rt : Runtime V} {lastCallback : V} {pass : LibCFormatPass}
  {message : LibCFormatMessage} {pos : LibCFormatPass.Positions} {proc : ProcSnippet}
  {view : FunctionTypeView} {objs : List (Obj V)} {T : QualType}

theorem map_type_fixedObjs (htypes : objs.map Obj.type = view.argTypes) :
    (fixedObjs pass objs).map Obj.type = fixedTypes pass view := by
  rw [fixedObjs, fixedTypes, ← htypes]
  split
  · exact List.map_dropLast
  · rfl

/-- What the sender's side asks for. -/
def FormatSends (s : Compiler) (pass : LibCFormatPass) (proc : ProcSnippet)
    (view : FunctionTypeView) (T : QualType) : Prop :=
  (∀ t ∈ view.argTypes, s.Declares t) ∧
    s.DeclaresLayer proc (fixedTypes pass view ++ [cvargEntryPtrType]) ∧ s.RetOk view.returnType T

theorem comes_send_format {calls : List (Call V)} {x v : Option V} {P : Prop} {tail : Option V}
    {cross : Option (Obj V) → List (Obj V) → Option (Obj V) →
      Option (List (Call V) × Option (Obj V))}
    (h : Located pass message view pos) (htypes : objs.map Obj.type = view.argTypes)
    (htail : tail.isSome = view.isVariadic)
    (hrec : recorded s rt pass message objs tail = some v)
    (hcross : ∀ ret, Comes (cross (leading proc ⟨pVoidType, some lastCallback⟩).head?
        (fixedObjs pass objs ++ [packedObj v]) ret)
      (P ∧ TakesResult view.returnType T ret) (calls, retAfter view.returnType T ret x)) :
    Comes (send s rt lastCallback (LibCFormatPass.sender s.getAsString pass proc view pos) cross
        objs tail)
      (FormatSends s pass proc view T ∧ P) ⟨calls, resultObj view.returnType T x⟩ := by
  have htypesEntry : objs.map Obj.type = (FunctionInfo.ofView view).arguments.map Prod.fst := by
    rw [htypes, FunctionInfo.map_fst_arguments_ofView]
  have htypes' : (fixedObjs pass objs ++ [packedObj v]).map Obj.type =
      (pass.NFI view).arguments.map Prod.fst := by
    rw [map_fst_arguments_NFI, List.map_append, map_type_fixedObjs htypes]
    rfl
  have hcallback : (⟨pVoidType, some lastCallback⟩ : Obj V).type = pVoidType := rfl
  have haccepts := accepts_layerInfo s proc htypes' hcallback
  have hcaller : Comes (senderCaller s rt lastCallback (LibCFormatPass.sender s.getAsString pass
      proc view pos) cross (leading proc ⟨pVoidType, some lastCallback⟩ ++
        (fixedObjs pass objs ++ [packedObj v]))) _ _ :=
    comes_packingCaller ⟨fun _ _ => none, cross⟩ (pass.NFI view) namesApart_LNFI
      htypes' rfl hcross
  have hadapt : Comes (senderAdapt s rt lastCallback (LibCFormatPass.sender s.getAsString pass
      proc view pos) cross (leading proc ⟨pVoidType, some lastCallback⟩ ++
        (fixedObjs pass objs ++ [packedObj v]))) _ _ :=
    comes_passThrough (.ofView view) namesApart_LNFI returnType_layerInfo haccepts hcaller
  have hvariadic : (tail.isNone || view.isVariadic) = true := by
    cases tail <;> simp_all
  have hentry := (hadapt.bind_returned s).guard (accepts_iff_declares s htypesEntry)
  rw [send, invoke_formatEntry h, hvariadic, Bool.and_true, hrec, Option.bind_some, next_only]
  refine hentry.congr ?_
  rw [FormatSends, FunctionInfo.map_fst_arguments_ofView, map_fst_arguments_NFI]
  show (_ ∧ (_ ∧ (_ ∧ _ ∧ s.RetOk view.returnType T) ∧ s.RetOk view.returnType T) ∧
    s.RetOk view.returnType T) ↔ _
  tauto

/-! ## What is recorded -/

theorem formatString_eq_some {o : Obj V} {x : V} :
    o.formatString = some x ↔ IsFormatString o.type ∧ o.val = some x := by
  rw [Obj.formatString, IsFormatString]
  split
  next quals quals' htype =>
    rw [htype]
    split
    next hvolatile => simp [hvolatile]
    next hvolatile => simp [hvolatile]
  next hne =>
    simp only [false_iff, reduceCtorEq]
    rintro ⟨⟨quals, quals', htype, -⟩, -⟩
    exact hne _ _ htype

theorem recorded_eq_some {v tail : Option V} (h : recorded s rt pass message objs tail = some v) :
    ∃ o fmt, objs[(message.fmtIdx - 1).toNat]? = some o ∧ IsFormatString o.type ∧
      o.val = some fmt ∧
      if pass.hasVAList then ∃ ap, objs[message.fixedCount]? = some ap ∧ ap.type = s.vaListType ∧
        v = ap.val.map (rt.extract pass.formatStyle fmt)
      else ∃ ap, tail = some ap ∧ message.vargIdx - 1 = objs.length ∧
        v = some (rt.extract pass.formatStyle fmt ap) := by
  rw [recorded, Option.bind_eq_bind, Option.bind_eq_some_iff] at h
  obtain ⟨fmt, hfmt, h⟩ := h
  obtain ⟨o, ho, hfmt⟩ := Option.bind_eq_some_iff.mp hfmt
  obtain ⟨hformat, hval⟩ := formatString_eq_some.mp hfmt
  refine ⟨o, fmt, ho, hformat, hval, ?_⟩
  split at h
  next hlist =>
    rw [if_pos hlist]
    obtain ⟨ap, hap, h⟩ := Option.bind_eq_some_iff.mp h
    obtain ⟨htype, h⟩ := Option.ite_none_right_eq_some.mp h
    exact ⟨ap, hap, htype, (Option.some.inj h).symm⟩
  next hlist =>
    rw [if_neg hlist]
    obtain ⟨ap, hap, h⟩ := Option.bind_eq_some_iff.mp h
    obtain ⟨hidx, h⟩ := Option.ite_none_right_eq_some.mp h
    exact ⟨ap, hap, hidx, (Option.some.inj h).symm⟩

theorem length_fixedObjs : (fixedObjs pass objs).length =
    if pass.hasVAList then objs.length - 1 else objs.length := by
  rw [fixedObjs]
  split
  · exact List.length_dropLast
  · rfl

/-- The fixed arguments that the message counts are there. -/
theorem fixedCount_le {v tail : Option V} (h : recorded s rt pass message objs tail = some v) :
    message.fixedCount ≤ (fixedObjs pass objs).length := by
  obtain ⟨_, _, _, _, _, hrest⟩ := recorded_eq_some h
  rw [length_fixedObjs]
  split at hrest
  next hlist =>
    rw [if_pos hlist]
    obtain ⟨ap, hap, -⟩ := hrest
    have hlt := (List.getElem?_eq_some_iff.mp hap).1
    omega
  next hlist =>
    rw [if_neg hlist]
    obtain ⟨ap, -, hidx, -⟩ := hrest
    rw [LibCFormatMessage.fixedCount]
    omega

end Sender

/-! ## The builders of formatted calls -/

section Format

variable {V : Type} {cc : Mode → Compiler} {rt : Runtime V} {pass : LibCFormatPass}
  {message : LibCFormatMessage} {pos : LibCFormatPass.Positions} {proc : ProcSnippet}
  {view : FunctionTypeView}

theorem runCall_format (hpos : pass.positions message view = some pos) (call : Invocation V) :
    runCall cc (.format pass message) proc view rt call =
      send (cc (senderMode proc.direction)) rt call.callback
        (LibCFormatPass.sender (cc (senderMode proc.direction)).getAsString pass proc view pos)
        (receive (cc (receiverMode proc.direction)) rt call.callback proc view
          (LibCFormatPass.receiver (cc (receiverMode proc.direction)).getAsString pass proc view
            pos))
        (argObjs view call.args) call.tail := by
  simp [runCall, Builder.beginHandleProc, LibCFormatPass.beginHandleProc, hpos, isSender_senderMode,
    isSender_receiverMode]

/-- The boxed call that the run comes to. -/
def formattedCall (r : Compiler) (pass : LibCFormatPass) (message : LibCFormatMessage)
    (proc : ProcSnippet) (view : FunctionTypeView) (call : Invocation V) (v : Option V) : Call V :=
  boxedCall r pass message view (call.leadingVal proc) (fixedObjs pass (argObjs view call.args)) v

theorem comes_runCall_format {v : Option V} (hpos : pass.positions message view = some pos)
    (call : Invocation V) (hlen : call.args.length = view.argTypes.length)
    (htail : call.tail.isSome = view.isVariadic)
    (hrec : recorded (cc (senderMode proc.direction)) rt pass message (argObjs view call.args)
      call.tail = some v) :
    Comes (runCall cc (.format pass message) proc view rt call)
      (FormatSends (cc (senderMode proc.direction)) pass proc view
          ((cc (receiverMode proc.direction)).resultType view.returnType) ∧
        FormatReceives (cc (receiverMode proc.direction)) pass message proc view)
      ⟨[formattedCall (cc (receiverMode proc.direction)) pass message proc view call v],
        resultObj view.returnType ((cc (receiverMode proc.direction)).resultType view.returnType)
          (unboxedResult (cc (receiverMode proc.direction)) view (rt.owner
            (formattedCall
              (cc (receiverMode proc.direction)) pass message proc view call v)))⟩ := by
  have hloc := located_of_positions hpos
  have htypes := map_type_argObjs hlen
  have hcallback : (⟨pVoidType, some call.callback⟩ : Obj V).type = pVoidType := rfl
  have hreceive := comes_receive_format (cc (receiverMode proc.direction)) rt call.callback proc v
    hloc (map_type_fixedObjs htypes) hcallback (fixedCount_le hrec)
  rw [leadingVal_eq] at hreceive
  rw [runCall_format hpos]
  exact comes_send_format hloc htypes htail hrec hreceive

end Format

end Lorelei.TLC
