import Lorelei.TLC.LayerSteps

/-!
# The layers of both modes come to the call itself

A call of the sender's Entry runs through six layers, three of each mode, to the function
that the proc stands for. The layers are wired by name, each to the next. What the text
does not decide is how the compilers read the types it spells: the run comes to the same
call of the function, and back to what the function returned, exactly where they read them
as the types that they stand for.
-/

namespace Lorelei.TLC

open Support Environment

/-! ## The wiring -/

namespace ProcSource

/-- The parameters of a layer, in order. -/
def params (src : ProcSource) : List Str := (src.functionInfo.map FunctionInfo.argNames).getD []

/-- The calls of other layers in the body of a layer. -/
def layerCalls (src : ProcSource) : List (ProcPhase × List Str) :=
  src.body.lines.filterMap fun
    | .callListAssign _ phase args => some (phase, args)
    | _ => none

/-- The variables whose addresses a layer packs, in the order of `args`. -/
def packs (src : ProcSource) : List (List Str) :=
  src.body.lines.filterMap fun
    | .argPtrListDecl names => some names
    | _ => none

/-- The packed calls in the body of a layer. -/
def packedCalls (src : ProcSource) : List (Option Str) :=
  src.body.lines.filterMap fun
    | .execInvoke callback _ => some callback
    | _ => none

/-- The variables that a layer takes out of a pack, with their places in it. -/
def unpacks (src : ProcSource) : List (Str × Nat) :=
  src.body.lines.filterMap fun
    | .argExtractDecl name _ i => some (name, i)
    | _ => none

end ProcSource

/-- The parameter that the layers of a callback have in front. -/
def ProcSnippet.leadingName (proc : ProcSnippet) : List Str :=
  if proc.isFunction then [] else [callbackName]

/-- Each layer passes its parameters on to the next, in order. Between the sides, the
arguments under these names are packed and unpacked. -/
structure Wired (proc : ProcSnippet) (names : List Str) (sender receiver : ProcSources) :
    Prop where
  entry : sender.entry.layerCalls = [(.adapt, sender.adapt.params)]
  adapt : sender.adapt.layerCalls = [(.caller, sender.caller.params)]
  caller : sender.caller.params = proc.leadingName ++ names
  packs : sender.caller.packs = [names]
  packed : sender.caller.packedCalls = [proc.leadingName.head?]
  unpacked : receiver.entry.params = proc.leadingName ++ [argsName, retName, metadataName]
  unpacks : receiver.entry.unpacks = names.zipIdx
  receiverEntry : receiver.entry.layerCalls = [(.adapt, receiver.adapt.params)]
  receiverAdapt : receiver.adapt.layerCalls = [(.caller, receiver.caller.params)]
  receiverCaller : receiver.caller.params = proc.leadingName ++ names

section Wiring

variable {getAsString getAsString' : QualType → Str} {proc : ProcSnippet} {view : FunctionTypeView}
  {signature info : FunctionInfo} {phase : ProcPhase}

theorem argNames_layerInfo :
    (proc.layerInfo info).argNames = proc.leadingName ++ info.argNames := by
  rw [ProcSnippet.layerInfo, ProcSnippet.leadingName]
  split <;> rfl

theorem layerCalls_passThrough :
    (ProcSnippet.passThrough getAsString signature info phase).layerCalls =
      [(phase, signature.argNames)] := by
  simp only [ProcSource.layerCalls, ProcSnippet.passThrough, FunctionBodySource.lines,
    SRC_emptyReturnDecl, SRC_callListAssign, SRC_returnRet]
  split_ifs <;> rfl

theorem packs_packingCaller : (proc.packingCaller getAsString signature info).packs =
    [info.argNames] := by
  simp only [ProcSource.packs, ProcSnippet.packingCaller, FunctionBodySource.lines,
    SRC_emptyReturnDecl, SRC_argPtrListDecl, SRC_returnRet]
  split_ifs <;> rfl

theorem packedCalls_packingCaller :
    (proc.packingCaller getAsString signature info).packedCalls = [proc.leadingName.head?] := by
  simp only [ProcSource.packedCalls, ProcSnippet.packingCaller, FunctionBodySource.lines,
    SRC_emptyReturnDecl, SRC_argPtrListDecl, SRC_returnRet, ProcSnippet.leadingName]
  split_ifs <;> rfl

theorem layerCalls_unpackingEntry :
    (proc.unpackingEntry getAsString signature info).layerCalls =
      [(.adapt, signature.argNames)] := by
  simp only [ProcSource.layerCalls, ProcSnippet.unpackingEntry, FunctionBodySource.lines,
    SRC_argPtrListExtractDecl, SRC_retExtractDecl, SRC_callListAssign, List.append_nil,
    List.filterMap_append, List.filterMap_map, Function.comp_def, List.filterMap_none]
  split_ifs <;> rfl

theorem unpacks_unpackingEntry :
    (proc.unpackingEntry getAsString signature info).unpacks = info.argNames.zipIdx := by
  have hextract : ∀ arguments : List (QualType × Str), ∀ i,
      ((arguments.zipIdx i).map fun p => (p.1.2, p.2)) =
        (arguments.map Prod.snd).zipIdx i := by
    intro arguments i
    rw [List.zipIdx_map]
    rfl
  simp only [ProcSource.unpacks, ProcSnippet.unpackingEntry, FunctionBodySource.lines,
    SRC_argPtrListExtractDecl, SRC_retExtractDecl, SRC_callListAssign, List.append_nil,
    List.filterMap_append, List.filterMap_map, Function.comp_def, FunctionInfo.argNames,
    ← hextract, List.filterMap_eq_map']
  split_ifs <;> simp

theorem params_unpackingEntry :
    (proc.unpackingEntry getAsString signature info).params =
      proc.leadingName ++ [argsName, retName, metadataName] := by
  simp only [ProcSource.params, ProcSnippet.unpackingEntry, ProcSnippet.packedInfo,
    ProcSnippet.leadingName]
  split_ifs <;> rfl

theorem wired_default : Wired proc (FunctionInfo.ofView view).argNames
    (DefaultBuilder.sender getAsString proc view)
    (DefaultBuilder.receiver getAsString' proc view) where
  entry := by
    simp only [ProcSource.layerCalls, DefaultBuilder.sender, FunctionBodySource.lines,
      SRC_emptyReturnDecl, SRC_callListAssign, SRC_returnRet, ProcSnippet.callbackLookup]
    split_ifs <;> rfl
  adapt := layerCalls_passThrough
  caller := argNames_layerInfo
  packs := packs_packingCaller
  packed := packedCalls_packingCaller
  unpacked := params_unpackingEntry
  unpacks := unpacks_unpackingEntry
  receiverEntry := layerCalls_unpackingEntry
  receiverAdapt := layerCalls_passThrough
  receiverCaller := argNames_layerInfo

theorem wired_format {pass : LibCFormatPass} {message : LibCFormatMessage}
    {pos : LibCFormatPass.Positions} (h : Located pass message view pos) :
    Wired proc (pass.NFI view).argNames (LibCFormatPass.sender getAsString pass proc view pos)
      (LibCFormatPass.receiver getAsString' pass proc view pos) where
  entry := by
    have hextract := h.extract
    simp only [ProcSource.layerCalls, LibCFormatPass.sender, FunctionBodySource.lines,
      SRC_emptyReturnDecl, SRC_callListAssign, SRC_returnRet, ProcSnippet.callbackLookup]
    split at hextract
    · obtain ⟨list, -, hline⟩ := hextract
      rw [hline]
      split_ifs <;> rfl
    · rw [hextract]
      split_ifs <;> rfl
  adapt := layerCalls_passThrough
  caller := argNames_layerInfo
  packs := packs_packingCaller
  packed := packedCalls_packingCaller
  unpacked := params_unpackingEntry
  unpacks := unpacks_unpackingEntry
  receiverEntry := layerCalls_unpackingEntry
  receiverAdapt := layerCalls_passThrough
  receiverCaller := argNames_layerInfo

end Wiring

/-! ## The call that the function is to see -/

/-- The names of the arguments that cross. -/
def Builder.names (builder : Builder) (view : FunctionTypeView) : List Str :=
  match builder with
  | .default => (FunctionInfo.ofView view).argNames
  | .format pass _ => (pass.NFI view).argNames

section Identity

variable {V : Type} (cc : Mode → Compiler) (builder : Builder) (proc : ProcSnippet)
  (view : FunctionTypeView)

/-- The function that a callback proc stands for. -/
def Invocation.leadingVal (call : Invocation V) (proc : ProcSnippet) : Option V :=
  if proc.isFunction then none else some call.callback

/-- The format string among the arguments of a call. -/
def LibCFormatMessage.formatArg (message : LibCFormatMessage) (args : List V) : Option V :=
  if 1 ≤ message.fmtIdx then args[(message.fmtIdx - 1).toNat]? else none

/-- The list of the variadic part: the last argument, or the arguments behind it. -/
def LibCFormatPass.listArg (pass : LibCFormatPass) (call : Invocation V) : Option V :=
  if pass.hasVAList then (if call.tail.isNone then call.args.getLast? else none) else call.tail

/-- The same call of the function itself. A formatted call is made with boxes, the fixed
arguments in front and behind them what the format string makes of the variadic part. -/
def Builder.intendedCall (r : Compiler) (rt : Runtime V) (call : Invocation V) :
    Option (Call V) :=
  match builder with
  | .default => some (.direct (call.leadingVal proc) (call.args.map some) call.tail)
  | .format pass message =>
      (message.formatArg call.args).bind fun fmt => (pass.listArg call).map fun list =>
        let types := if pass.hasVAList then view.argTypes.dropLast else view.argTypes
        .boxed pass.callHelper (call.leadingVal proc)
          (List.zipWith (fun t v => ⟨typeID r t, some v⟩) types call.args)
          (some (rt.extract pass.formatStyle fmt list))
          (if view.returnType.isVoidType then .void else typeID r view.returnType)

/-- Every call of the sender's Entry comes to the same call of the function and returns
what it returned. -/
def CallIdentity : Prop :=
  ∀ (V : Type) (rt : Runtime V) (call : Invocation V), call.args.length = view.argTypes.length →
    call.tail.isSome = view.isVariadic →
      ∃ c, builder.intendedCall proc view (cc (receiverMode proc.direction)) rt call = some c ∧
        runCall cc builder proc view rt call =
          some ⟨[c], if view.returnType.isVoidType then none
            else some ⟨view.returnType, some (rt.owner c)⟩⟩

/-- The layers that both modes generate are wired to each other and come to the identity. -/
def Composes : Prop :=
  (∃ sender receiver,
    builder.beginHandleProc (cc (senderMode proc.direction)) proc view
        (senderMode proc.direction) = some sender ∧
      builder.beginHandleProc (cc (receiverMode proc.direction)) proc view
        (receiverMode proc.direction) = some receiver ∧
      Wired proc (builder.names view) sender receiver) ∧
  CallIdentity cc builder proc view

end Identity

/-! ## When types are read as themselves -/

namespace Compiler

variable (cc : Compiler) (t : QualType)

/-- A parameter that is declared with the text of the type has the type. -/
def Declares : Prop := cc.paramType t = some t

/-- The text of a pointer to the type points at the type. -/
def Unpacks : Prop := cc.castType (getTypeString cc.getAsString (.pointerTo t)) = some t

/-- A value of the type can be boxed, in a field that is wide enough. -/
def Boxes : Prop := ∃ c, boxType cc t = some c ∧ fits c = true

/-- The text of the type takes a value of the type out of a box. -/
def Unboxes : Prop :=
  cc.varType (getTypeString cc.getAsString t) = some t ∧
    unboxed t (some ()) = some (some ())

end Compiler

/-- A type that is passed as a `const char *`. -/
def IsFormatString (t : QualType) : Prop :=
  ∃ quals quals' : Qualifiers, t = .pointer quals (.builtin quals' .char) ∧ quals'.volatile = false

/-- Both compilers read the types of the arguments and of the result as themselves, and
there are no variadic arguments. -/
structure DefaultCarries (s r : Compiler) (proc : ProcSnippet) (view : FunctionTypeView) :
    Prop where
  notVariadic : view.isVariadic = false
  args : ∀ t ∈ view.argTypes, s.Declares t ∧ r.Declares t ∧ r.Unpacks t
  callback : proc.isFunction = false → s.Declares pVoidType ∧ r.Declares pVoidType
  ret : view.returnType.isVoidType = false → s.retType view.returnType = some view.returnType ∧
    r.retType view.returnType = some view.returnType ∧ r.Unpacks view.returnType

/-- The message gives the positions of the format string and of the variadic part, and
both compilers read the types that cross as themselves; the fixed arguments and the result
have types that boxes carry. -/
structure FormatCarries (s r : Compiler) (pass : LibCFormatPass) (message : LibCFormatMessage)
    (proc : ProcSnippet) (view : FunctionTypeView) : Prop where
  variadic : view.isVariadic = !pass.hasVAList
  vargIdx : message.vargIdx = view.argTypes.length + if pass.hasVAList then 0 else 1
  two_le : 2 ≤ message.vargIdx
  one_le : 1 ≤ message.fmtIdx
  format : ∃ t, view.argTypes[(message.fmtIdx - 1).toNat]? = some t ∧ IsFormatString t
  list : pass.hasVAList = true → view.argTypes.getLast? = some s.vaListType
  args : ∀ t ∈ view.argTypes, s.Declares t
  fixed : ∀ t ∈ if pass.hasVAList then view.argTypes.dropLast else view.argTypes,
    r.Declares t ∧ r.Unpacks t ∧ r.Boxes t
  vargs : s.Declares cvargEntryPtrType ∧ r.Declares cvargEntryPtrType ∧ r.Unpacks cvargEntryPtrType
  callback : proc.isFunction = false → s.Declares pVoidType ∧ r.Declares pVoidType
  ret : view.returnType.isVoidType = false → s.retType view.returnType = some view.returnType ∧
    r.retType view.returnType = some view.returnType ∧ r.Unpacks view.returnType ∧
      r.Unboxes view.returnType

/-- The condition, for each builder. -/
def Builder.Carries (builder : Builder) (s r : Compiler) (proc : ProcSnippet)
    (view : FunctionTypeView) : Prop :=
  match builder with
  | .default => DefaultCarries s r proc view
  | .format pass message => FormatCarries s r pass message proc view

/-! ## Types of objects -/

section Types

variable {V : Type} {cc : Compiler} {info : FunctionInfo} {objs : List (Obj V)}

variable (cc) in
/-- Objects of the types of a signature are accepted if its text declares these types. -/
theorem accepts_iff_declares (htypes : objs.map Obj.type = info.arguments.map Prod.fst) :
    accepts cc info objs = true ↔ ∀ t ∈ info.arguments.map Prod.fst, cc.Declares t := by
  rw [accepts, decide_eq_true_iff, htypes, mapM_eq_some_iff, List.forall₂_map_right_iff,
    List.forall₂_same]
  simp [Compiler.Declares]

variable (cc) in
theorem reads_iff_unpacks {arguments : List (QualType × Str)}
    (htypes : objs.map Obj.type = arguments.map Prod.fst) :
    Reads cc arguments objs ↔ ∀ t ∈ arguments.map Prod.fst, cc.Unpacks t := by
  have hreads : Reads cc arguments objs ↔ List.Forall₂ (fun arg t =>
      cc.castType (getTypeString cc.getAsString (.pointerTo arg.1)) = some t) arguments
        (objs.map Obj.type) := by
    rw [List.forall₂_map_right_iff]
    rfl
  rw [hreads, htypes, List.forall₂_map_right_iff, List.forall₂_same]
  simp [Compiler.Unpacks]

theorem map_type_argObjs {view : FunctionTypeView} {args : List V}
    (hlen : args.length = view.argTypes.length) :
    (argObjs view args).map Obj.type = view.argTypes := by
  rw [argObjs, List.map_zipWith]
  generalize view.argTypes = types at hlen
  induction types generalizing args with
  | nil => simp
  | cons t types ih =>
      cases args with
      | nil => simp at hlen
      | cons v args => simp [ih (by simpa using hlen)]

theorem map_val_argObjs {view : FunctionTypeView} {args : List V}
    (hlen : args.length = view.argTypes.length) :
    (argObjs view args).map Obj.val = args.map some := by
  rw [argObjs, List.map_zipWith]
  generalize view.argTypes = types at hlen
  induction types generalizing args with
  | nil => simp_all
  | cons t types ih =>
      cases args with
      | nil => simp at hlen
      | cons v args => simp [ih (by simpa using hlen)]

end Types

/-! ## Conditional outcomes -/

/-- There is an outcome exactly under a condition, and it is this one. -/
structure Comes {α : Type} (o : Option α) (P : Prop) (a : α) : Prop where
  eq_some : P → o = some a
  eq_none : ¬ P → o = none

/-- The object for a value that is returned, at a type. -/
def resultObj {V : Type} (returnType t : QualType) (v : Option V) : Option (Obj V) :=
  if returnType.isVoidType then none else some ⟨t, v⟩

/-- The variable `ret` has this type. -/
def Compiler.RetOk (cc : Compiler) (returnType t : QualType) : Prop :=
  returnType.isVoidType = false → cc.retType returnType = some t

/-- The object behind `ret` is taken for one of this type. -/
def Compiler.UnpacksRet (cc : Compiler) (returnType t : QualType) : Prop :=
  returnType.isVoidType = false →
    cc.castType (getTypeString cc.getAsString (.pointerTo returnType)) = some t

section Comes

variable {α V : Type} {o : Option α} {P Q : Prop} {a : α} {cc : Compiler} {R T : QualType}
  {calls : List (Call V)} {v : Option V}

theorem of_isVoidType {C : Prop} (hvoid : R.isVoidType = true) : R.isVoidType = false → C :=
  fun hfalse => nomatch hvoid.symm.trans hfalse

theorem Comes.congr (h : Comes o P a) (hPQ : P ↔ Q) : Comes o Q a :=
  ⟨fun hQ => h.eq_some (hPQ.mpr hQ), fun hQ => h.eq_none (mt hPQ.mp hQ)⟩

theorem Comes.guard {b : Bool} (h : Comes o P a) (hb : b = true ↔ Q) :
    Comes (if b then o else none) (Q ∧ P) a := by
  constructor
  · rintro ⟨hQ, hP⟩
    rw [if_pos (hb.mpr hQ), h.eq_some hP]
  · intro hnot
    split
    next hQ => exact h.eq_none fun hP => hnot ⟨hb.mp hQ, hP⟩
    next => rfl

theorem Comes.cond_of_isSome (h : Comes o P a) (ho : o.isSome = true) : P := by
  by_contra hP
  rw [h.eq_none hP] at ho
  exact nomatch ho

variable (cc) in
/-- The return of a layer asks for the type of `ret`. -/
theorem Comes.bind_returned {o : Option (Outcome V)} (h : Comes o P ⟨calls, resultObj R T v⟩) :
    Comes (o.bind (returned cc R)) (P ∧ cc.RetOk R T) ⟨calls, resultObj R T v⟩ := by
  constructor
  · rintro ⟨hP, hret⟩
    rw [h.eq_some hP, Option.bind_some]
    cases hvoid : R.isVoidType with
    | true => simp [returned_of_void hvoid, resultObj, hvoid]
    | false => simp [returned_of_retType hvoid (hret hvoid), resultObj, hvoid]
  · intro hnot
    by_cases hP : P
    · obtain ⟨hvoid, hret⟩ := Classical.not_imp.mp fun hret => hnot ⟨hP, hret⟩
      rw [h.eq_some hP, Option.bind_some]
      cases ht : cc.retType R with
      | none => rw [returned_of_none hvoid ht]
      | some t =>
          have hne : t ≠ T := fun heq => hret (heq ▸ ht)
          simp [returned_of_retType hvoid ht, resultObj, hvoid, hne]
    · rw [h.eq_none hP]
      rfl

/-- The object behind `ret` after a packed call. -/
def retAfter (R T : QualType) (ret : Option (Obj V)) (v : Option V) : Option (Obj V) :=
  if R.isVoidType then ret else some ⟨T, v⟩

/-- The object behind `ret` can take the value that is returned. -/
def TakesResult (R T : QualType) (ret : Option (Obj V)) : Prop :=
  R.isVoidType = false → ∃ o, ret = some o ∧ o.type = T

theorem Comes.unpacked {o : Option (Outcome V)} {ret : Option (Obj V)}
    (h : Comes o P ⟨calls, resultObj R T v⟩) :
    Comes (unpacked cc R o ret)
      (P ∧ cc.UnpacksRet R T ∧ TakesResult R T ret) (calls, retAfter R T ret v) := by
  rw [TLC.unpacked]
  constructor
  · rintro ⟨hP, hunpacks, hret⟩
    rw [h.eq_some hP]
    cases hvoid : R.isVoidType with
    | true => simp [retAfter, hvoid]
    | false =>
        obtain ⟨o, rfl, htype⟩ := hret hvoid
        simp [retAfter, resultObj, hvoid, hunpacks hvoid, htype]
  · intro hnot
    by_cases hP : P
    · rw [h.eq_some hP]
      cases hvoid : R.isVoidType with
      | true => exact (hnot ⟨hP, of_isVoidType hvoid, of_isVoidType hvoid⟩).elim
      | false =>
          cases hcast : cc.castType (getTypeString cc.getAsString (.pointerTo R)) with
          | none => rfl
          | some t =>
              cases ret with
              | none => rfl
              | some o =>
                  simp only [Bool.false_eq_true, if_false, Option.bind_some, resultObj, hvoid]
                  split
                  next htype =>
                    split
                    next heq =>
                      refine absurd ⟨hP, fun _ => ?_, fun _ => ⟨o, rfl, htype.trans heq⟩⟩ hnot
                      rw [hcast, heq]
                    next => rfl
                  next => rfl
    · rw [h.eq_none hP]
      split
      · rfl
      · cases cc.castType (getTypeString cc.getAsString (.pointerTo R)) <;> cases ret <;> simp

theorem comes_crossed {cross : Option (Obj V) → Option (List (Call V) × Option (Obj V))}
    (h : ∀ ret, Comes (cross ret) (P ∧ TakesResult R T ret) (calls, retAfter R T ret v)) :
    Comes (crossed cc R cross) (P ∧ cc.RetOk R T) ⟨calls, resultObj R T v⟩ := by
  rw [crossed]
  obtain hvoid | hvoid := R.isVoidType.eq_false_or_eq_true
  · have htakes : ∀ ret : Option (Obj V), TakesResult R T ret := fun _ => of_isVoidType hvoid
    have hok : cc.RetOk R T := of_isVoidType hvoid
    rw [if_pos hvoid]
    constructor
    · rintro ⟨hP, -⟩
      rw [(h none).eq_some ⟨hP, htakes _⟩]
      simp [retAfter, resultObj, hvoid]
    · intro hnot
      rw [(h none).eq_none fun hP => hnot ⟨hP.1, hok⟩]
      rfl
  · rw [if_neg (by simp [hvoid])]
    constructor
    · rintro ⟨hP, hok⟩
      rw [hok hvoid, Option.bind_eq_bind, Option.bind_some,
        (h (some ⟨T, none⟩)).eq_some ⟨hP, fun _ => ⟨_, rfl, rfl⟩⟩]
      simp [retAfter, resultObj, hvoid]
    · intro hnot
      cases ht : cc.retType R with
      | none => rfl
      | some t =>
          rw [Option.bind_eq_bind, Option.bind_some,
            (h (some ⟨t, none⟩)).eq_none fun htakes => hnot ⟨htakes.1, fun _ => ?_⟩]
          · rfl
          · obtain ⟨o, ho, rfl⟩ := htakes.2 hvoid
            cases ho
            exact ht

end Comes

/-! ## The layers, from the last to the first -/

section Layers

variable {V : Type} {cc : Compiler} {rt : Runtime V} {lastCallback : V} {v : Option V}
  {link : Linkage V}
  {proc : ProcSnippet} {view : FunctionTypeView} {info : FunctionInfo} {objs : List (Obj V)}
  {callback : Obj V} {calls : List (Call V)} {P : Prop} {phase : ProcPhase} {T : QualType}

@[simp] theorem next_only (next : List (Obj V) → Option (Outcome V)) :
    (Linkage.only phase next).next phase = next := by
  funext objs
  simp [Linkage.only]

/-- The text of a layer declares the types of these arguments. -/
def Compiler.DeclaresLayer (cc : Compiler) (proc : ProcSnippet) (types : List QualType) : Prop :=
  (∀ t ∈ types, cc.Declares t) ∧ (proc.isFunction = false → cc.Declares pVoidType)

variable (cc proc) in
theorem accepts_layerInfo (htypes : objs.map Obj.type = info.arguments.map Prod.fst)
    (hcallback : callback.type = pVoidType) :
    accepts cc (proc.layerInfo info) (leading proc callback ++ objs) = true ↔
      cc.DeclaresLayer proc (info.arguments.map Prod.fst) := by
  rw [Compiler.DeclaresLayer]
  cases hfun : proc.isFunction with
  | true =>
      simp only [ProcSnippet.layerInfo, leading, hfun, if_true, List.nil_append]
      rw [accepts_iff_declares cc htypes]
      simp
  | false =>
      simp only [ProcSnippet.layerInfo, leading, hfun, Bool.false_eq_true, if_false]
      rw [accepts_iff_declares cc (by simp [withCallback, hcallback, htypes])]
      simp only [withCallback, List.map_cons, List.forall_mem_cons, forall_const]
      exact and_comm

variable (info) in
/-- A layer that passes its parameters on. -/
theorem comes_passThrough {signature : FunctionInfo} {next : List (Obj V) → Option (Outcome V)}
    (hnames : NamesApart signature) (hret : signature.returnType = info.returnType) {Q : Prop}
    (haccepts : accepts cc signature objs = true ↔ Q)
    (h : Comes (next objs) P ⟨calls, resultObj info.returnType T v⟩) :
    Comes (invoke cc rt lastCallback (ProcSnippet.passThrough cc.getAsString signature info phase)
      (.only phase next) objs none) (Q ∧ P ∧ cc.RetOk info.returnType T)
        ⟨calls, resultObj info.returnType T v⟩ := by
  rw [invoke_passThrough hnames hret, next_only]
  simp only [Option.isNone_none, Bool.true_or, Bool.and_true]
  exact (h.bind_returned cc).guard haccepts

variable (info) in
/-- The Entry of the receiver. -/
theorem comes_unpackingEntry {next : List (Obj V) → Option (Outcome V)} {args : List (Obj V)}
    {ret : Option (Obj V)} (hnames : NamesApart (proc.layerInfo info))
    (hcallback : callbackName ∉ info.argNames)
    (htypes : args.map Obj.type = info.arguments.map Prod.fst)
    (h : Comes (next (leading proc callback ++ args)) P ⟨calls, resultObj info.returnType T v⟩) :
    Comes (invokePacked cc rt lastCallback
        (proc.unpackingEntry cc.getAsString (proc.layerInfo info) info) (.only .adapt next)
        (leading proc callback).head? args ret)
      (((∀ t ∈ info.arguments.map Prod.fst, cc.Unpacks t) ∧ P ∧ cc.UnpacksRet info.returnType T) ∧
        TakesResult info.returnType T ret)
      (calls, retAfter info.returnType T ret v) := by
  have hiff := reads_iff_unpacks cc htypes
  by_cases hreads : Reads cc info.arguments args
  · rw [invokePacked_unpackingEntry hnames hcallback hreads, next_only]
    refine h.unpacked.congr ?_
    have hunpacks := hiff.mp hreads
    tauto
  · have hlen : args.length = info.arguments.length := by
      simpa using congrArg List.length htypes
    rw [invokePacked_unpackingEntry_none hlen hreads]
    exact ⟨fun hP => absurd (hiff.mpr hP.1.1) hreads, fun _ => rfl⟩

variable (link info) in
/-- The Caller of the sender. -/
theorem comes_packingCaller {args : List (Obj V)} (hnames : NamesApart (proc.layerInfo info))
    (htypes : args.map Obj.type = info.arguments.map Prod.fst)
    (hcallback : callback.type = pVoidType)
    (h : ∀ ret, Comes (link.cross (leading proc callback).head? args ret)
      (P ∧ TakesResult info.returnType T ret) (calls, retAfter info.returnType T ret v)) :
    Comes (invoke cc rt lastCallback
        (proc.packingCaller cc.getAsString (proc.layerInfo info) info) link
        (leading proc callback ++ args) none)
      (cc.DeclaresLayer proc (info.arguments.map Prod.fst) ∧ P ∧ cc.RetOk info.returnType T)
      ⟨calls, resultObj info.returnType T v⟩ := by
  rw [invoke_packingCaller hnames]
  exact (comes_crossed h).guard (accepts_layerInfo cc proc htypes hcallback)

variable (rt proc callback) in
theorem comes_owner (htypes : objs.map Obj.type = view.argTypes) :
    Comes (invokeOwner rt proc view (leading proc callback ++ objs)) True
      ⟨[.direct ((leading proc callback).head?.bind Obj.val) (objs.map Obj.val) none],
        resultObj view.returnType view.returnType (some
          (rt.owner
            (.direct ((leading proc callback).head?.bind Obj.val) (objs.map Obj.val) none)))⟩ := by
  refine ⟨fun _ => ?_, fun h => (h trivial).elim⟩
  rw [invokeOwner]
  cases hfun : proc.isFunction with
  | true => simp [leading, hfun, htypes, resultObj]
  | false => simp [leading, hfun, htypes, resultObj]

end Layers

/-! ## The default builder -/

section Default

variable {V : Type} {s r : Compiler} {rt : Runtime V} {lastCallback : V} {proc : ProcSnippet}
  {view : FunctionTypeView} {objs : List (Obj V)} {callback : Obj V}

/-- What the receiver's side asks for. -/
def DefaultReceives (r : Compiler) (proc : ProcSnippet) (view : FunctionTypeView) : Prop :=
  (∀ t ∈ view.argTypes, r.Unpacks t) ∧ r.DeclaresLayer proc view.argTypes ∧
    r.RetOk view.returnType view.returnType ∧ r.UnpacksRet view.returnType view.returnType

theorem namesApart_LFI : NamesApart (proc.layerInfo (.ofView view)) :=
  namesApart_layerInfo proc (namesApart_ofView view) (callbackName_notMem view)

theorem returnType_layerInfo {info : FunctionInfo} :
    (proc.layerInfo info).returnType = info.returnType := by
  rw [ProcSnippet.layerInfo]
  split <;> rfl

variable (r rt lastCallback proc) in
theorem comes_receive_default (htypes : objs.map Obj.type = view.argTypes)
    (hcallback : callback.type = pVoidType) (ret : Option (Obj V)) :
    Comes (receive r rt lastCallback proc view (DefaultBuilder.receiver r.getAsString proc view)
        (leading proc callback).head? objs ret)
      (DefaultReceives r proc view ∧ TakesResult view.returnType view.returnType ret)
      ([.direct ((leading proc callback).head?.bind Obj.val) (objs.map Obj.val) none],
        retAfter view.returnType view.returnType ret
          (some (rt.owner
            (.direct ((leading proc callback).head?.bind Obj.val) (objs.map Obj.val) none)))) := by
  have htypes' : objs.map Obj.type = (FunctionInfo.ofView view).arguments.map Prod.fst := by
    rw [htypes, FunctionInfo.map_fst_arguments_ofView]
  have haccepts := accepts_layerInfo r proc htypes' hcallback
  have howner := comes_owner rt proc callback htypes
  have hcaller : Comes (receiverCaller r rt lastCallback proc view
      (DefaultBuilder.receiver r.getAsString proc view) (leading proc callback ++ objs)) _ _ :=
    comes_passThrough (.ofView view) namesApart_LFI returnType_layerInfo haccepts howner
  have hadapt : Comes (receiverAdapt r rt lastCallback proc view
      (DefaultBuilder.receiver r.getAsString proc view) (leading proc callback ++ objs)) _ _ :=
    comes_passThrough (.ofView view) namesApart_LFI returnType_layerInfo haccepts hcaller
  have hentry : Comes (receive r rt lastCallback proc view
      (DefaultBuilder.receiver r.getAsString proc view) (leading proc callback).head? objs ret)
        _ _ :=
    comes_unpackingEntry (.ofView view) namesApart_LFI (callbackName_notMem view) htypes'
      hadapt
  refine hentry.congr ?_
  rw [DefaultReceives, FunctionInfo.map_fst_arguments_ofView, FunctionInfo.returnType_ofView]
  tauto

theorem comes_send_default {calls : List (Call V)} {v : Option V} {P : Prop} {tail : Option V}
    {cross : Option (Obj V) → List (Obj V) → Option (Obj V) →
      Option (List (Call V) × Option (Obj V))}
    (htypes : objs.map Obj.type = view.argTypes) (htail : tail.isSome = view.isVariadic)
    (hcross : ∀ ret, Comes (cross (leading proc ⟨pVoidType, some lastCallback⟩).head? objs ret)
      (P ∧ TakesResult view.returnType view.returnType ret)
      (calls, retAfter view.returnType view.returnType ret v)) :
    Comes (send s rt lastCallback (DefaultBuilder.sender s.getAsString proc view) cross objs tail)
      ((s.DeclaresLayer proc view.argTypes ∧ s.RetOk view.returnType view.returnType) ∧ P)
      ⟨calls, resultObj view.returnType view.returnType v⟩ := by
  have htypes' : objs.map Obj.type = (FunctionInfo.ofView view).arguments.map Prod.fst := by
    rw [htypes, FunctionInfo.map_fst_arguments_ofView]
  have hcallback : (⟨pVoidType, some lastCallback⟩ : Obj V).type = pVoidType := rfl
  have haccepts := accepts_layerInfo s proc htypes' hcallback
  have hcaller : Comes (senderCaller s rt lastCallback (DefaultBuilder.sender s.getAsString proc
      view) cross (leading proc ⟨pVoidType, some lastCallback⟩ ++ objs)) _ _ :=
    comes_packingCaller ⟨fun _ _ => none, cross⟩ (.ofView view) namesApart_LFI
      htypes' rfl hcross
  have hadapt : Comes (senderAdapt s rt lastCallback (DefaultBuilder.sender s.getAsString proc
      view) cross (leading proc ⟨pVoidType, some lastCallback⟩ ++ objs)) _ _ :=
    comes_passThrough (.ofView view) namesApart_LFI returnType_layerInfo haccepts hcaller
  have hvariadic : (tail.isNone || view.isVariadic) = true := by
    cases tail <;> simp_all
  have hentry := (hadapt.bind_returned s).guard (accepts_iff_declares s htypes')
  rw [send, invoke_defaultEntry, hvariadic, Bool.and_true, next_only]
  refine hentry.congr ?_
  rw [FunctionInfo.map_fst_arguments_ofView, FunctionInfo.returnType_ofView,
    Compiler.DeclaresLayer]
  tauto

theorem isSender_senderMode (direction : ProcDirection) :
    isSender (senderMode direction) direction = true := by
  cases direction <;> rfl

theorem isSender_receiverMode (direction : ProcDirection) :
    isSender (receiverMode direction) direction = false := by
  cases direction <;> rfl

/-- The direct call that the run comes to. -/
def directCall (proc : ProcSnippet) (call : Invocation V) : Call V :=
  .direct (call.leadingVal proc) (call.args.map some) none

theorem leadingVal_eq (call : Invocation V) :
    ((leading proc ⟨pVoidType, some call.callback⟩).head?.bind Obj.val : Option V) =
      call.leadingVal proc := by
  rw [leading, Invocation.leadingVal]
  split <;> rfl

variable {cc : Mode → Compiler}

variable (rt proc cc) in
theorem comes_runCall_default (call : Invocation V)
    (hlen : call.args.length = view.argTypes.length)
    (htail : call.tail.isSome = view.isVariadic) :
    Comes (runCall cc .default proc view rt call)
      (((cc (senderMode proc.direction)).DeclaresLayer proc view.argTypes ∧
        (cc (senderMode proc.direction)).RetOk view.returnType view.returnType) ∧
          DefaultReceives (cc (receiverMode proc.direction)) proc view)
      ⟨[directCall proc call], resultObj view.returnType view.returnType
        (some (rt.owner (directCall proc call)))⟩ := by
  have htypes := map_type_argObjs hlen
  have hcallback : (⟨pVoidType, some call.callback⟩ : Obj V).type = pVoidType := rfl
  have hreceive := comes_receive_default (cc (receiverMode proc.direction)) rt call.callback proc
    htypes hcallback
  rw [leadingVal_eq, map_val_argObjs hlen] at hreceive
  simpa [runCall, Builder.beginHandleProc, DefaultBuilder.beginHandleProc, isSender_senderMode,
    isSender_receiverMode, directCall] using
      comes_send_default (s := cc (senderMode proc.direction)) htypes htail hreceive

/-- The default builder carries a call exactly under its condition. -/
theorem composes_default_iff :
    Composes cc .default proc view ↔ DefaultCarries (cc (senderMode proc.direction))
      (cc (receiverMode proc.direction)) proc view := by
  constructor
  · rintro ⟨-, hidentity⟩
    -- a call with arguments of no particular value
    let call : Invocation Unit := ⟨List.replicate view.argTypes.length (),
      if view.isVariadic then some () else none, ()⟩
    have hlen : call.args.length = view.argTypes.length := List.length_replicate ..
    have htail : call.tail.isSome = view.isVariadic := by
      cases hvariadic : view.isVariadic <;> simp [call, hvariadic]
    let rt : Runtime Unit := ⟨fun _ _ _ => (), fun _ => ()⟩
    obtain ⟨c, hc, hrun⟩ := hidentity Unit rt call hlen htail
    have hcomes := comes_runCall_default rt proc cc call hlen htail
    obtain ⟨⟨⟨hs, hscb⟩, hsret⟩, hunpacks, ⟨hr, hrcb⟩, hrret, hret⟩ :=
      hcomes.cond_of_isSome (by rw [hrun]; rfl)
    refine ⟨?_, fun t ht => ⟨hs t ht, hr t ht, hunpacks t ht⟩, fun hfun => ⟨hscb hfun, hrcb hfun⟩,
      fun hvoid => ⟨hsret hvoid, hrret hvoid, hret hvoid⟩⟩
    -- the variadic arguments of the call are lost
    have hcalls : [directCall proc call] = [c] :=
      congrArg Outcome.calls (Option.some.inj ((hcomes.eq_some
        (hcomes.cond_of_isSome (by rw [hrun]; rfl))).symm.trans hrun))
    cases hc
    have htailNone : (none : Option Unit) = call.tail := by
      simpa [directCall] using hcalls
    rw [← htail, ← htailNone]
    rfl
  · rintro ⟨hvariadic, hargs, hcallback, hret⟩
    refine ⟨⟨_, _, rfl, rfl, ?_⟩, fun V rt call hlen htail => ?_⟩
    · rw [DefaultBuilder.beginHandleProc, DefaultBuilder.beginHandleProc, isSender_senderMode,
        isSender_receiverMode, if_pos rfl, if_neg Bool.false_ne_true]
      exact wired_default
    · have htailNone : call.tail = none := by
        rw [hvariadic] at htail
        exact Option.isSome_eq_false_iff.mp htail |> Option.isNone_iff_eq_none.mp
      refine ⟨directCall proc call, ?_, ?_⟩
      · simp [Builder.intendedCall, directCall, htailNone]
      · refine (comes_runCall_default rt proc cc call hlen htail).eq_some
          ⟨⟨⟨?_, ?_⟩, ?_⟩, ?_, ⟨?_, ?_⟩, ?_, ?_⟩
        · exact fun t ht => (hargs t ht).1
        · exact fun hfun => (hcallback hfun).1
        · exact fun hvoid => (hret hvoid).1
        · exact fun t ht => (hargs t ht).2.2
        · exact fun t ht => (hargs t ht).2.1
        · exact fun hfun => (hcallback hfun).2
        · exact fun hvoid => (hret hvoid).2.1
        · exact fun hvoid => (hret hvoid).2.2

end Default

end Lorelei.TLC
