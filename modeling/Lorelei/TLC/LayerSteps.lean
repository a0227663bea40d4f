import Lorelei.TLC.LayerRun

/-!
# What one layer does

For each kind of layer that the builders make, what a call of it comes to: which types its
text has to be read as, what it calls the next layer with, and what it returns.
-/

namespace Lorelei.TLC

open Support Environment

variable {V : Type} {cc : Compiler} {rt : Runtime V} {lastCallback : V} {link : Linkage V}
  {signature info : FunctionInfo} {phase : ProcPhase} {objs : List (Obj V)} {tail : Option V}

namespace Frame

variable (f : Frame V) (name : Str) (o : Obj V)

@[simp] theorem vars_declare_self : (f.declare name o).vars name = some o :=
  Function.update_self ..

theorem vars_declare_of_ne {name name' : Str} (hne : name' ≠ name) :
    (f.declare name o).vars name' = f.vars name' :=
  Function.update_of_ne hne ..

theorem assign_of_vars {o' r : Obj V} (ho : f.vars name = some o') :
    f.assign name r = if o'.type = r.type then some (f.declare name r) else none := by
  rw [assign, ho]
  rfl

end Frame

/-! ## Returning -/

/-- The type of the variable `ret` of a layer that returns this type. -/
def Compiler.retType (cc : Compiler) (returnType : QualType) : Option QualType :=
  cc.varType (getTypeStringDecompound cc.getAsString returnType)

/-- What a layer makes of what the next one returned. -/
def returned (cc : Compiler) (returnType : QualType) (out : Outcome V) : Option (Outcome V) :=
  if returnType.isVoidType then some ⟨out.calls, none⟩
  else do
    let t ← cc.retType returnType
    let r ← out.ret
    if t = r.type then return ⟨out.calls, some r⟩ else none

section Returned

variable {R : QualType} {t : QualType}

theorem returned_of_void (hvoid : R.isVoidType = true) :
    returned (V := V) cc R = fun out => some ⟨out.calls, none⟩ := by
  funext out
  simp [returned, hvoid]

theorem returned_of_retType (hvoid : R.isVoidType = false) (ht : cc.retType R = some t) :
    returned (V := V) cc R = fun out => out.ret.bind fun r =>
      if t = r.type then some ⟨out.calls, some r⟩ else none := by
  funext out
  simp [returned, hvoid, ht]

theorem returned_of_none (hvoid : R.isVoidType = false) (ht : cc.retType R = none) :
    returned (V := V) cc R = fun _ => none := by
  funext out
  simp [returned, hvoid, ht]

end Returned

theorem execLines_append (lines lines' : List Line) (f : Frame V) :
    execLines cc rt lastCallback link (lines ++ lines') f =
      (execLines cc rt lastCallback link lines f).bind
        (execLines cc rt lastCallback link lines') :=
  List.foldlM_append

/-- The call of the next layer and the return, behind a prolog. -/
theorem execLines_call_void (f : Frame V) (hbinds : Binds f.vars signature.argNames objs)
    (hvoid : info.returnType.isVoidType = true) (hret : signature.returnType = info.returnType) :
    (execLines cc rt lastCallback link
      (SRC_callListAssign signature phase retName ++ SRC_returnRet info) f).map Frame.outcome =
      (link.next phase objs).map fun out => ⟨f.calls ++ out.calls, f.result⟩ := by
  simp only [SRC_callListAssign, SRC_returnRet, hret, hvoid, if_true, List.append_nil, execLines,
    List.foldlM_cons, List.foldlM_nil, exec, SRC_callList, hbinds.mapM_eq]
  cases hnext : link.next phase objs with
  | none => simp [hnext]
  | some out => simp [hnext, Frame.outcome]

theorem execLines_call {t : QualType} (f : Frame V)
    (hbinds : Binds f.vars signature.argNames objs)
    (hvoid : info.returnType.isVoidType = false) (hret : signature.returnType = info.returnType)
    (hdecl : f.vars retName = some ⟨t, none⟩) :
    (execLines cc rt lastCallback link
      (SRC_callListAssign signature phase retName ++ SRC_returnRet info) f).map Frame.outcome =
      (link.next phase objs).bind fun out => out.ret.bind fun r =>
        if t = r.type then some ⟨f.calls ++ out.calls, some r⟩ else none := by
  simp only [SRC_callListAssign, SRC_returnRet, hret, hvoid, Bool.false_eq_true, if_false,
    execLines, List.cons_append, List.nil_append, List.foldlM_cons, List.foldlM_nil, exec,
    SRC_callList, hbinds.mapM_eq]
  cases hnext : link.next phase objs with
  | none => simp [hnext]
  | some out =>
      cases hout : out.ret with
      | none => simp [hnext, hout]
      | some r =>
          by_cases heq : t = r.type
          · simp [hnext, hout, heq, hdecl, Frame.assign, Frame.declare, Frame.outcome]
          · simp [hnext, hout, heq, hdecl, Frame.assign]

theorem execLines_emptyReturnDecl (f : Frame V) :
    execLines cc rt lastCallback link (SRC_emptyReturnDecl cc.getAsString info) f =
      if info.returnType.isVoidType then some f
      else (cc.retType info.returnType).map fun t => f.declare retName ⟨t, none⟩ := by
  rw [SRC_emptyReturnDecl]
  split
  · rfl
  · rw [Compiler.retType]
    cases h : cc.varType (getTypeStringDecompound cc.getAsString info.returnType) <;>
      simp [execLines, exec, h]

/-! ## Typed layers -/

theorem accepts_iff : accepts cc info objs = true ↔
    List.Forall₂ (fun arg o => cc.paramType arg.1 = some o.type) info.arguments objs := by
  rw [accepts, decide_eq_true_iff, mapM_eq_some_iff, List.forall₂_map_right_iff]

/-- The names of a signature are distinct, and none is a name that the layers declare. -/
def NamesApart (info : FunctionInfo) : Prop :=
  info.argNames.Nodup ∧ retName ∉ info.argNames ∧ retRefName ∉ info.argNames

theorem namesApart_ofView (view : FunctionTypeView) : NamesApart (.ofView view) :=
  ⟨FunctionInfo.nodup_argNames_ofView view, FunctionInfo.notMem_argNames_ofView view (by decide),
    FunctionInfo.notMem_argNames_ofView view (by decide)⟩

theorem callbackName_notMem (view : FunctionTypeView) :
    callbackName ∉ (FunctionInfo.ofView view).argNames :=
  FunctionInfo.notMem_argNames_ofView view (by decide)

theorem vargsName_notMem (view : FunctionTypeView) :
    vargsName ∉ (FunctionInfo.ofView view).argNames :=
  FunctionInfo.notMem_argNames_ofView view (by decide)

theorem namesApart_layerInfo (proc : ProcSnippet) (h : NamesApart info)
    (hcallback : callbackName ∉ info.argNames) : NamesApart (proc.layerInfo info) := by
  rw [ProcSnippet.layerInfo]
  split
  · exact h
  · obtain ⟨hnodup, hret, hretRef⟩ := h
    refine ⟨List.nodup_cons.mpr ⟨hcallback, hnodup⟩, ?_, ?_⟩
    · exact fun hmem => (List.mem_cons.mp hmem).elim (by decide) hret
    · exact fun hmem => (List.mem_cons.mp hmem).elim (by decide) hretRef

/-- A typed layer before its first call, with `ret` declared or not. -/
structure AtStart (info : FunctionInfo) (objs : List (Obj V)) (tail : Option V) (f : Frame V) :
    Prop where
  params : f.params = info.argNames
  tail : f.tail = tail
  vars : ∀ name, name ≠ retName → f.vars name = ofParams info.argNames objs name
  calls : f.calls = []
  result : f.result = none

theorem AtStart.binds {f : Frame V} (hf : AtStart info objs tail f) (hnames : NamesApart info)
    (h : accepts cc info objs = true) : Binds f.vars info.argNames objs := by
  refine (binds_ofParams hnames.1 ?_).congr fun name hname => hf.vars name ?_
  · rw [FunctionInfo.argNames, List.length_map]
    exact (accepts_iff.mp h).length_eq
  · rintro rfl
    exact hnames.2.1 hname

/-- The lines come to a frame in which the signature stands for these objects. -/
def Prepares (cc : Compiler) (rt : Runtime V) (lastCallback : V) (link : Linkage V)
    (signature : FunctionInfo) (lines : List Line) (f : Frame V)
    (passed : Option (List (Obj V))) : Prop :=
  match passed with
  | none => execLines cc rt lastCallback link lines f = none
  | some objs => ∃ f', execLines cc rt lastCallback link lines f = some f' ∧
      f'.vars retName = f.vars retName ∧ Binds f'.vars signature.argNames objs ∧
        f'.calls = [] ∧ f'.result = none

variable (signature info phase) in
/-- A layer that prepares the arguments of a call of the next one and returns what that
returns. -/
theorem invoke_typed {src : ProcSource} (lines : List Line) (callee : FunctionInfo)
    (passed : Option (List (Obj V))) (hinfo : src.functionInfo = some signature)
    (hlines : src.body.lines = SRC_emptyReturnDecl cc.getAsString info ++ (lines ++
      (SRC_callListAssign callee phase retName ++ SRC_returnRet info)))
    (hret : callee.returnType = info.returnType)
    (hprep : accepts cc signature objs = true → ∀ f, AtStart signature objs tail f →
      Prepares cc rt lastCallback link callee lines f passed) :
    invoke cc rt lastCallback src link objs tail =
      if accepts cc signature objs && (tail.isNone || signature.isVariadic) then
        passed.bind fun objs => (link.next phase objs).bind (returned cc info.returnType)
      else none := by
  rw [invoke, hinfo, hlines]
  simp only [Option.bind_eq_bind, Option.bind_some]
  split
  next haccept =>
    replace hprep := hprep (Bool.and_eq_true_iff.mp haccept).1
    rw [execLines_append, execLines_emptyReturnDecl]
    cases hvoid : info.returnType.isVoidType with
    | true =>
        have hstart : AtStart signature objs tail (Frame.ofCall signature objs tail) :=
          ⟨rfl, rfl, fun _ _ => rfl, rfl, rfl⟩
        replace hprep := hprep _ hstart
        rw [if_pos rfl, Option.bind_some, execLines_append, returned_of_void hvoid]
        cases passed with
        | none =>
            rw [Prepares] at hprep
            rw [hprep]
            rfl
        | some objs' =>
            obtain ⟨f', hexec, -, hbinds, hcalls, hresult⟩ := hprep
            rw [hexec, Option.bind_some, execLines_call_void _ hbinds hvoid hret, hcalls, hresult,
              Option.map_eq_bind]
            rfl
    | false =>
        rw [if_neg Bool.false_ne_true]
        cases ht : cc.retType info.returnType with
        | none =>
            rw [returned_of_none hvoid ht]
            simp
        | some t =>
            have hstart : AtStart signature objs tail
                ((Frame.ofCall signature objs tail).declare retName ⟨t, none⟩) :=
              ⟨rfl, rfl, fun _ hne => Function.update_of_ne hne .., rfl, rfl⟩
            replace hprep := hprep _ hstart
            rw [Option.map_some, Option.bind_some, execLines_append, returned_of_retType hvoid ht]
            cases passed with
            | none =>
                rw [Prepares] at hprep
                rw [hprep]
                rfl
            | some objs' =>
                obtain ⟨f', hexec, hdecl, hbinds, hcalls, -⟩ := hprep
                rw [hexec, Option.bind_some, execLines_call (t := t) _ hbinds hvoid hret
                  (by rw [hdecl, Frame.vars_declare_self]), hcalls]
                rfl
  next => rfl

theorem invoke_passThrough (hnames : NamesApart signature)
    (hret : signature.returnType = info.returnType) :
    invoke cc rt lastCallback (ProcSnippet.passThrough cc.getAsString signature info phase)
        link objs tail =
      if accepts cc signature objs && (tail.isNone || signature.isVariadic) then
        (link.next phase objs).bind (returned cc info.returnType)
      else none := by
  refine invoke_typed signature info phase [] signature (some objs) rfl ?_ hret ?_
  · simp [ProcSnippet.passThrough, FunctionBodySource.lines]
  · intro haccept f hf
    exact ⟨f, rfl, rfl, hf.binds hnames haccept, hf.calls, hf.result⟩

/-- The object that a callback layer carries in front. -/
def leading (proc : ProcSnippet) (callback : Obj V) : List (Obj V) :=
  if proc.isFunction then [] else [callback]

theorem binds_layerInfo_iff {proc : ProcSnippet} {vars : Str → Option (Obj V)}
    {callback : Obj V} :
    Binds vars (proc.layerInfo info).argNames (leading proc callback ++ objs) ↔
      Binds vars info.argNames objs ∧
        (proc.isFunction = false → vars callbackName = some callback) := by
  cases hfun : proc.isFunction with
  | true => simp [ProcSnippet.layerInfo, leading, hfun]
  | false =>
      simp only [ProcSnippet.layerInfo, leading, hfun, Bool.false_eq_true, if_false, Binds,
        withCallback, FunctionInfo.argNames, List.map_cons, List.cons_append, List.nil_append,
        List.forall₂_cons, forall_const]
      exact and_comm

/-- The frame behind the lookup of the function that a callback layer stands for. -/
def Frame.lookedUp (proc : ProcSnippet) (lastCallback : V) (f : Frame V) : Frame V :=
  if proc.isFunction then f else f.declare callbackName ⟨pVoidType, some lastCallback⟩

theorem execLines_callbackLookup (proc : ProcSnippet) (f : Frame V) :
    execLines cc rt lastCallback link proc.callbackLookup f =
      some (f.lookedUp proc lastCallback) := by
  rw [ProcSnippet.callbackLookup, Frame.lookedUp]
  split <;> rfl

section LookedUp

variable {proc : ProcSnippet} {f : Frame V}

theorem Frame.vars_lookedUp_of_ne {name : Str} (hne : name ≠ callbackName) :
    (f.lookedUp proc lastCallback).vars name = f.vars name := by
  rw [lookedUp]
  split
  · rfl
  · exact f.vars_declare_of_ne _ hne

theorem Frame.vars_lookedUp (hfun : proc.isFunction = false) :
    (f.lookedUp proc lastCallback).vars callbackName = some ⟨pVoidType, some lastCallback⟩ := by
  rw [lookedUp, hfun]
  exact f.vars_declare_self ..

variable (lastCallback proc f) in
/-- The lookup changes the variables only. -/
theorem Frame.lookedUp_eq : ∃ vars, f.lookedUp proc lastCallback = { f with vars } := by
  rw [lookedUp]
  split
  · exact ⟨f.vars, rfl⟩
  · exact ⟨_, rfl⟩

theorem binds_lookedUp (hbinds : Binds f.vars info.argNames objs)
    (hcallback : callbackName ∉ info.argNames) :
    Binds (f.lookedUp proc lastCallback).vars info.argNames objs :=
  hbinds.congr fun _ hmem => Frame.vars_lookedUp_of_ne fun heq => hcallback (heq ▸ hmem)

end LookedUp

/-- The Entry of the sender under the default builder. -/
theorem invoke_defaultEntry {proc : ProcSnippet} {view : FunctionTypeView} :
    invoke cc rt lastCallback (DefaultBuilder.sender cc.getAsString proc view).entry
        link objs tail =
      if accepts cc (.ofView view) objs && (tail.isNone || view.isVariadic) then
        (link.next .adapt (leading proc ⟨pVoidType, some lastCallback⟩ ++ objs)).bind
          (returned cc view.returnType)
      else none := by
  refine invoke_typed (.ofView view) (.ofView view) .adapt proc.callbackLookup
    (DefaultBuilder.LFI proc view) (some (leading proc ⟨pVoidType, some lastCallback⟩ ++ objs)) rfl
    ?_ ?_ ?_
  · simp [DefaultBuilder.sender, FunctionBodySource.lines, DefaultBuilder.FI]
  · rw [DefaultBuilder.LFI, ProcSnippet.layerInfo]
    split <;> rfl
  · intro haccept f hf
    have hbinds := hf.binds (namesApart_ofView view) haccept
    obtain ⟨vars, hvars⟩ := Frame.lookedUp_eq lastCallback proc f
    refine ⟨f.lookedUp proc lastCallback, execLines_callbackLookup proc f,
      Frame.vars_lookedUp_of_ne (by decide), ?_, hvars ▸ hf.calls, hvars ▸ hf.result⟩
    exact binds_layerInfo_iff.mpr
      ⟨binds_lookedUp hbinds (callbackName_notMem view), Frame.vars_lookedUp⟩

/-! ## The Caller of the sender -/

/-- What the Caller of the sender makes of a packed call, from the object that it gives it
for the return value. -/
def crossed (cc : Compiler) (returnType : QualType)
    (cross : Option (Obj V) → Option (List (Call V) × Option (Obj V))) : Option (Outcome V) :=
  if returnType.isVoidType then do
    match ← cross none with
    | (calls, none) => return ⟨calls, none⟩
    | (_, some _) => none
  else do
    let t ← cc.retType returnType
    match ← cross (some ⟨t, none⟩) with
    | (calls, none) => return ⟨calls, some ⟨t, none⟩⟩
    | (calls, some o) => if t = o.type then return ⟨calls, some o⟩ else none

section Packing

variable {f : Frame V} {target : Option Str} {callback : Option (Obj V)} {args : List (Obj V)}

theorem execLines_packed_void (hbinds : Binds f.vars info.argNames args)
    (htarget : target.mapM f.vars = some callback) (hvoid : info.returnType.isVoidType = true)
    (hret : f.vars retName = none) (hcalls : f.calls = []) (hresult : f.result = none) :
    (execLines cc rt lastCallback link
      (SRC_argPtrListDecl info ++ ([.execInvoke target none] ++ SRC_returnRet info)) f).map
        Frame.outcome =
      crossed cc info.returnType (link.cross callback args) := by
  simp only [SRC_argPtrListDecl, SRC_returnRet, hvoid, if_true, List.append_nil, List.cons_append,
    List.nil_append, execLines, List.foldlM_cons, List.foldlM_nil, exec, hbinds.mapM_eq, htarget,
    crossed, Option.bind_eq_bind, Option.bind_some, Option.mapM_none, Option.pure_def]
  cases hcross : link.cross callback args none with
  | none => simp
  | some out =>
      obtain ⟨calls, ret⟩ := out
      cases ret with
      | none => simp [Frame.outcome, hcalls, hresult]
      | some o => simp [Frame.assign, hret]

theorem execLines_packed {t : QualType} (hbinds : Binds f.vars info.argNames args)
    (htarget : target.mapM f.vars = some callback) (hvoid : info.returnType.isVoidType = false)
    (ht : cc.retType info.returnType = some t) (hret : f.vars retName = some ⟨t, none⟩)
    (hcalls : f.calls = []) :
    (execLines cc rt lastCallback link
      (SRC_argPtrListDecl info ++ ([.execInvoke target (some retName)] ++ SRC_returnRet info))
        f).map Frame.outcome =
      crossed cc info.returnType (link.cross callback args) := by
  simp only [SRC_argPtrListDecl, SRC_returnRet, hvoid, Bool.false_eq_true, if_false,
    List.cons_append, List.nil_append, execLines, List.foldlM_cons, List.foldlM_nil, exec,
    hbinds.mapM_eq, htarget, hret, ht, crossed, Option.bind_eq_bind, Option.bind_some,
    Option.mapM_some, Option.pure_def, Option.map_eq_map, Option.map_some]
  cases hcross : link.cross callback args (some ⟨t, none⟩) with
  | none => simp
  | some out =>
      obtain ⟨calls, ret⟩ := out
      cases ret with
      | none => simp [Frame.outcome, hcalls, hret]
      | some o =>
          by_cases heq : t = o.type
          · simp [Frame.assign, Frame.declare, Frame.outcome, hret, heq, hcalls]
          · simp [Frame.assign, hret, heq]

end Packing

theorem invoke_packingCaller {proc : ProcSnippet} {callback : Obj V} {args : List (Obj V)}
    (hnames : NamesApart (proc.layerInfo info)) :
    invoke cc rt lastCallback (proc.packingCaller cc.getAsString (proc.layerInfo info) info) link
        (leading proc callback ++ args) none =
      if accepts cc (proc.layerInfo info) (leading proc callback ++ args) then
        crossed cc info.returnType (link.cross (leading proc callback).head? args)
      else none := by
  rw [invoke]
  simp only [ProcSnippet.packingCaller, Option.bind_eq_bind, Option.bind_some, Option.isNone_none,
    Bool.true_or, Bool.and_true, FunctionBodySource.lines]
  split
  next haccept =>
    have hstart : ∀ f, AtStart (proc.layerInfo info) (leading proc callback ++ args) none f →
        Binds f.vars info.argNames args ∧
          (if proc.isFunction then none else some callbackName).mapM f.vars =
            some (leading proc callback).head? := by
      intro f hf
      obtain ⟨hbinds, hcallback⟩ := binds_layerInfo_iff.mp (hf.binds hnames haccept)
      refine ⟨hbinds, ?_⟩
      cases hfun : proc.isFunction with
      | true => simp [leading, hfun]
      | false => simp [leading, hfun, hcallback hfun]
    rw [List.append_assoc, List.append_assoc, execLines_append, execLines_emptyReturnDecl]
    cases hvoid : info.returnType.isVoidType with
    | true =>
        obtain ⟨hbinds, htarget⟩ := hstart (.ofCall ..) ⟨rfl, rfl, fun _ _ => rfl, rfl, rfl⟩
        rw [if_pos rfl, Option.bind_some, if_pos rfl]
        exact execLines_packed_void hbinds htarget hvoid (ofParams_of_notMem hnames.2.1) rfl rfl
    | false =>
        rw [if_neg Bool.false_ne_true, if_neg Bool.false_ne_true]
        cases ht : cc.retType info.returnType with
        | none => simp [crossed, hvoid, ht]
        | some t =>
            obtain ⟨hbinds, htarget⟩ := hstart (.declare (.ofCall ..) retName ⟨t, none⟩)
              ⟨rfl, rfl, fun _ hne => Frame.vars_declare_of_ne _ _ hne, rfl, rfl⟩
            rw [Option.map_some, Option.bind_some]
            exact execLines_packed hbinds htarget hvoid ht (Frame.vars_declare_self ..) rfl
  next => rfl

/-! ## The Entry of the receiver -/

/-- The objects are read at their own types. -/
def Reads (cc : Compiler) (arguments : List (QualType × Str)) (args : List (Obj V)) : Prop :=
  List.Forall₂ (fun arg o =>
    cc.castType (getTypeString cc.getAsString (.pointerTo arg.1)) = some o.type) arguments args

/-- The lines that take the arguments from the `i`-th one on out of the pack. -/
def extractLines (cc : Compiler) (arguments : List (QualType × Str)) (i : Nat) : List Line :=
  (arguments.zipIdx i).map fun (arg, i) =>
    .argExtractDecl arg.2 (getTypeString cc.getAsString (.pointerTo arg.1)) i

section Extract

variable {arguments : List (QualType × Str)} {args : List (Obj V)} {i : Nat} {f : Frame V}

variable (rt lastCallback link i f) in
theorem execLines_extract (hargs : f.args.drop i = args) (hreads : Reads cc arguments args)
    (hnodup : (arguments.map Prod.snd).Nodup) :
    ∃ vars, execLines cc rt lastCallback link (extractLines cc arguments i) f =
        some { f with vars } ∧
      Binds vars (arguments.map Prod.snd) args ∧
        ∀ name, name ∉ arguments.map Prod.snd → vars name = f.vars name := by
  induction hreads generalizing i f with
  | nil => exact ⟨f.vars, rfl, .nil, fun _ _ => rfl⟩
  | @cons arg o arguments args harg _ ih =>
      obtain ⟨hname, hrest⟩ := List.nodup_cons.mp hnodup
      have hget : f.args[i]? = some o := by
        rw [← List.head?_drop, hargs]
        rfl
      have hdrop : (f.declare arg.2 o).args.drop (i + 1) = args := by
        rw [← List.tail_drop]
        exact congrArg List.tail hargs
      obtain ⟨vars, hexec, hbinds, hother⟩ := ih _ _ hdrop hrest
      refine ⟨vars, ?_, .cons ?_ hbinds, fun name hmem => ?_⟩
      · show execLines _ _ _ _ (.argExtractDecl .. :: extractLines cc arguments (i + 1)) f = _
        simp only [execLines, List.foldlM_cons, exec, harg, hget, Option.bind_eq_bind,
          Option.bind_some, if_true, Option.pure_def]
        exact hexec
      · rw [hother _ hname, Frame.vars_declare_self]
      · obtain ⟨hne, hnot⟩ := not_or.mp (mt List.mem_cons.mpr hmem)
        rw [hother _ hnot, Frame.vars_declare_of_ne _ _ hne]

theorem execLines_extract_none (hargs : f.args.drop i = args)
    (hlen : args.length = arguments.length)
    (hreads : ¬ Reads cc arguments args) :
    execLines cc rt lastCallback link (extractLines cc arguments i) f = none := by
  induction arguments generalizing i f args with
  | nil =>
      rw [List.length_nil, List.length_eq_zero_iff] at hlen
      exact absurd (hlen ▸ .nil) hreads
  | cons arg arguments ih =>
      cases args with
      | nil => simp at hlen
      | cons o args =>
          have hget : f.args[i]? = some o := by
            rw [← List.head?_drop, hargs]
            rfl
          have hdrop : (f.declare arg.2 o).args.drop (i + 1) = args := by
            rw [← List.tail_drop]
            exact congrArg List.tail hargs
          show execLines _ _ _ _ (.argExtractDecl .. :: extractLines cc arguments (i + 1)) f = _
          simp only [execLines, List.foldlM_cons, exec, hget, Option.bind_eq_bind,
            Option.bind_some, Option.pure_def]
          cases hcast : cc.castType (getTypeString cc.getAsString (.pointerTo arg.1)) with
          | none => rfl
          | some t =>
              by_cases heq : o.type = t
              · rw [Option.bind_some, if_pos heq, Option.bind_some]
                refine ih hdrop (by simpa using hlen) fun h => hreads (.cons ?_ h)
                rw [hcast, heq]
              · rw [Option.bind_some, if_neg heq]
                rfl

end Extract

/-- What the Entry of the receiver makes of a call of the next layer and the object for
the return value. -/
def unpacked (cc : Compiler) (returnType : QualType) (next : Option (Outcome V))
    (ret : Option (Obj V)) : Option (List (Call V) × Option (Obj V)) :=
  if returnType.isVoidType then next.map fun out => (out.calls, ret)
  else (cc.castType (getTypeString cc.getAsString (.pointerTo returnType))).bind fun t =>
    ret.bind fun o =>
      if o.type = t then next.bind fun out => out.ret.bind fun r =>
        if t = r.type then some (out.calls, some r) else none
      else none

theorem execLines_unpack {f : Frame V} {ret : Option (Obj V)}
    (hbinds : Binds f.vars signature.argNames objs) (hname : retRefName ∉ signature.argNames)
    (hret : signature.returnType = info.returnType) (href : f.vars retRefName = none)
    (hpointee : f.pointee = ret) (hcalls : f.calls = []) :
    (execLines cc rt lastCallback link (SRC_retExtractDecl cc.getAsString info ++
      SRC_callListAssign signature phase retRefName) f).map Frame.packedOutcome =
      unpacked cc info.returnType (link.next phase objs) ret := by
  simp only [SRC_retExtractDecl, SRC_callListAssign, hret, unpacked]
  cases hvoid : info.returnType.isVoidType with
  | true =>
      simp only [if_true, List.nil_append, execLines, List.foldlM_cons, List.foldlM_nil, exec,
        SRC_callList, hbinds.mapM_eq, Option.bind_eq_bind, Option.bind_some, Option.pure_def]
      cases hnext : link.next phase objs with
      | none => simp
      | some out => simp [Frame.packedOutcome, href, hpointee, hcalls]
  | false =>
      simp only [Bool.false_eq_true, if_false, execLines, List.cons_append, List.nil_append,
        List.foldlM_cons, List.foldlM_nil, exec, SRC_callList, Option.bind_eq_bind,
        Option.pure_def, hpointee]
      cases hcast : cc.castType (getTypeString cc.getAsString (.pointerTo info.returnType)) with
      | none => simp
      | some t =>
          cases ret with
          | none => simp
          | some o =>
              by_cases heq : o.type = t
              · have hmap := (hbinds.update hname (some o)).mapM_eq
                cases hnext : link.next phase objs with
                | none => simp [heq, Frame.declare, hmap, hnext]
                | some out =>
                    cases hout : out.ret with
                    | none => simp [heq, Frame.declare, hmap, hnext, hout]
                    | some r =>
                        by_cases hr : t = r.type
                        · simp [heq, Frame.declare, Frame.assign, Frame.packedOutcome, hmap, hnext,
                            hout, hr, hcalls]
                        · simp [heq, Frame.declare, Frame.assign, hmap, hnext, hout, hr]
              · simp [heq]

theorem packedInfo_eq (proc : ProcSnippet) (callback : Obj V) :
    (if (leading proc callback).head?.isSome then FI_packedCallbackInfo
      else FI_packedFunctionInfo) = proc.packedInfo := by
  cases hfun : proc.isFunction <;> simp [leading, ProcSnippet.packedInfo, hfun]

section Unpacking

variable {proc : ProcSnippet} {callback : Obj V} {args : List (Obj V)} {ret : Option (Obj V)}

theorem invokePacked_unpackingEntry_eq :
    invokePacked cc rt lastCallback
        (proc.unpackingEntry cc.getAsString (proc.layerInfo info) info) link
        (leading proc callback).head? args ret =
      (execLines cc rt lastCallback link (extractLines cc info.arguments 0 ++
        (SRC_retExtractDecl cc.getAsString info ++
          SRC_callListAssign (proc.layerInfo info) .adapt retRefName))
        (.ofPacked (leading proc callback).head? args ret)).map Frame.packedOutcome := by
  simp only [invokePacked, ProcSnippet.unpackingEntry, Option.bind_eq_bind, Option.bind_some,
    packedInfo_eq, FunctionBodySource.lines, if_true, List.append_nil, List.append_assoc]
  rfl

theorem invokePacked_unpackingEntry (hnames : NamesApart (proc.layerInfo info))
    (hcallback : callbackName ∉ info.argNames) (hreads : Reads cc info.arguments args) :
    invokePacked cc rt lastCallback
        (proc.unpackingEntry cc.getAsString (proc.layerInfo info) info) link
        (leading proc callback).head? args ret =
      unpacked cc info.returnType (link.next .adapt (leading proc callback ++ args)) ret := by
  obtain ⟨hnodup, -, hretRef⟩ := hnames
  have hsub : info.argNames <:+ (proc.layerInfo info).argNames := by
    rw [ProcSnippet.layerInfo]
    split
    · exact List.suffix_rfl
    · exact List.suffix_cons _ _
  obtain ⟨vars, hexec, hbinds, hother⟩ := execLines_extract rt lastCallback link 0
    (.ofPacked (leading proc callback).head? args ret) rfl hreads (hsub.sublist.nodup hnodup)
  have hret : (proc.layerInfo info).returnType = info.returnType := by
    rw [ProcSnippet.layerInfo]
    split <;> rfl
  rw [invokePacked_unpackingEntry_eq, execLines_append, hexec, Option.bind_some]
  refine execLines_unpack ?_ hretRef hret ?_ rfl rfl
  · refine binds_layerInfo_iff.mpr ⟨hbinds, fun hfun => ?_⟩
    show vars callbackName = _
    rw [hother _ hcallback]
    simp [Frame.ofPacked, leading, hfun]
  · exact hother _ fun hmem => hretRef (hsub.subset hmem)

theorem invokePacked_unpackingEntry_none (hlen : args.length = info.arguments.length)
    (hreads : ¬ Reads cc info.arguments args) :
    invokePacked cc rt lastCallback
        (proc.unpackingEntry cc.getAsString (proc.layerInfo info) info) link
        (leading proc callback).head? args ret = none := by
  have hdrop : (Frame.ofPacked (leading proc callback).head? args ret).args.drop 0 = args := rfl
  rw [invokePacked_unpackingEntry_eq, execLines_append, execLines_extract_none hdrop hlen hreads]
  rfl

end Unpacking

/-! ## The layers of a formatted call -/

section Format

variable {pass : LibCFormatPass} {message : LibCFormatMessage} {proc : ProcSnippet}
  {view : FunctionTypeView} {pos : LibCFormatPass.Positions}

/-- What the Entry of the sender records of the variadic part. -/
def recorded (cc : Compiler) (rt : Runtime V) (pass : LibCFormatPass)
    (message : LibCFormatMessage) (objs : List (Obj V)) (tail : Option V) : Option (Option V) := do
  let fmt ← objs[(message.fmtIdx - 1).toNat]?.bind Obj.formatString
  if pass.hasVAList then do
    let ap ← objs[(message.vargIdx - 1).toNat]?
    if ap.type = cc.vaListType then return ap.val.map (rt.extract pass.formatStyle fmt) else none
  else do
    let ap ← tail
    if message.vargIdx - 1 = objs.length then return some (rt.extract pass.formatStyle fmt ap)
    else none

/-- The arguments in front of the variadic part. -/
def fixedObjs (pass : LibCFormatPass) (objs : List (Obj V)) : List (Obj V) :=
  if pass.hasVAList then objs.dropLast else objs

theorem argumentName_eq_some {i : Int} {name : Str} :
    info.argumentName i = some name ↔ 0 ≤ i ∧ info.argNames[i.toNat]? = some name := by
  rw [FunctionInfo.argumentName]
  split <;> simp_all

/-- The positions of a message that are inside of the arguments. -/
structure Located (pass : LibCFormatPass) (message : LibCFormatMessage) (view : FunctionTypeView)
    (pos : LibCFormatPass.Positions) : Prop where
  format : (FunctionInfo.ofView view).argNames[(message.fmtIdx - 1).toNat]? = some pos.formatName
  last : (FunctionInfo.ofView view).argNames[(message.vargIdx - 2).toNat]? = some pos.lastArgToken
  vargIdx : 2 ≤ message.vargIdx
  fmtIdx : 1 ≤ message.fmtIdx
  fixed : pos.fixedArgEntries = [.fixedArgEntriesDecl
    ((FunctionInfo.ofView view).argNames.take (message.vargIdx - 1).toNat)]
  extract : if pass.hasVAList then ∃ list,
      (FunctionInfo.ofView view).argNames[(message.vargIdx - 1).toNat]? = some list ∧
        pos.extract = .extract pass.formatStyle pos.formatName list
    else pos.extract = .vaStartExtract pos.lastArgToken pass.formatStyle pos.formatName

theorem located_of_positions (h : pass.positions message view = some pos) :
    Located pass message view pos := by
  simp only [LibCFormatPass.positions, Option.bind_eq_bind, Option.bind_eq_some_iff,
    Option.pure_def, Option.some.injEq, argumentName_eq_some, LibCFormatPass.FI,
    SRC_fixedArgEntriesDecl, LibCFormatPass.extractLine] at h
  obtain ⟨format, ⟨hfmtIdx, hformat⟩, last, ⟨hvargIdx, hlast⟩, fixed, hfixed, extract, hextract,
    rfl⟩ := h
  refine ⟨hformat, hlast, by omega, by omega, ?_, ?_⟩
  · obtain ⟨-, hfixed⟩ := Option.ite_none_right_eq_some.mp hfixed
    exact (Option.some.inj hfixed).symm
  · split at hextract
    next hlist =>
      rw [if_pos hlist]
      obtain ⟨list, hname, rfl⟩ := Option.map_eq_some_iff.mp hextract
      exact ⟨list, (argumentName_eq_some.mp hname).2, rfl⟩
    next hlist =>
      rw [if_neg hlist]
      exact (Option.some.inj hextract).symm

/-- The list that `va_start` begins is the whole tail if the last parameter is given. -/
theorem Located.last_iff (h : Located pass message view pos) :
    (FunctionInfo.ofView view).argNames.getLast? = some pos.lastArgToken ↔
      message.vargIdx - 1 = (FunctionInfo.ofView view).argNames.length := by
  have hvargIdx := h.vargIdx
  obtain ⟨hlt, hget⟩ := List.getElem?_eq_some_iff.mp h.last
  rw [List.getLast?_eq_getElem?]
  constructor
  · intro hlast
    obtain ⟨hlt', hget'⟩ := List.getElem?_eq_some_iff.mp hlast
    have heq := (FunctionInfo.nodup_argNames_ofView view).getElem_inj_iff.mp (hget.trans hget'.symm)
    omega
  · intro heq
    rw [← h.last]
    congr 1
    omega

variable (tail) in
theorem exec_extract {f : Frame V} (h : Located pass message view pos)
    (hbinds : Binds f.vars (FunctionInfo.ofView view).argNames objs)
    (hparams : f.params = (FunctionInfo.ofView view).argNames) (htail : f.tail = tail)
    (hvargs : f.vars vargsName = some ⟨cvargEntryPtrType, none⟩) :
    exec cc rt lastCallback link pos.extract f =
      (recorded cc rt pass message objs tail).map fun v =>
        f.declare vargsName ⟨cvargEntryPtrType, v⟩ := by
  have hfmt := hbinds.getElem?_eq h.format
  have hextract := h.extract
  rw [recorded]
  cases hlist : pass.hasVAList with
  | true =>
      rw [if_pos hlist] at hextract
      obtain ⟨list, hname, hline⟩ := hextract
      rw [hline]
      simp only [exec, hfmt, hbinds.getElem?_eq hname, Frame.assign_of_vars _ _ hvargs, if_true,
        Option.bind_eq_bind, Option.pure_def]
      cases objs[(message.fmtIdx - 1).toNat]?.bind Obj.formatString with
      | none => rfl
      | some fmt =>
          cases objs[(message.vargIdx - 1).toNat]? with
          | none => rfl
          | some ap =>
              by_cases heq : ap.type = cc.vaListType
              · simp [heq]
              · simp [heq]
  | false =>
      rw [if_neg (by simp [hlist])] at hextract
      rw [hextract]
      simp only [exec, hfmt, hparams, htail, h.last_iff, Frame.assign_of_vars _ _ hvargs,
        Bool.false_eq_true, if_false, if_true, Option.bind_eq_bind, Option.pure_def,
        hbinds.length_eq]
      cases objs[(message.fmtIdx - 1).toNat]?.bind Obj.formatString with
      | none => rfl
      | some fmt =>
          cases tail with
          | none => rfl
          | some ap =>
              by_cases heq : message.vargIdx - 1 = objs.length
              · simp [heq]
              · simp [heq]

theorem argNames_NFI :
    (pass.NFI view).argNames =
      (if pass.hasVAList then (FunctionInfo.ofView view).argNames.dropLast
        else (FunctionInfo.ofView view).argNames) ++ [vargsName] := by
  rw [FunctionInfo.argNames, LibCFormatPass.NFI, List.map_append]
  split <;> simp [LibCFormatPass.FI, FunctionInfo.argNames, List.map_dropLast]

theorem binds_NFI {vars : Str → Option (Obj V)} {o : Obj V}
    (hbinds : Binds vars (FunctionInfo.ofView view).argNames objs)
    (hvargs : vars vargsName = some o) :
    Binds vars (pass.NFI view).argNames (fixedObjs pass objs ++ [o]) := by
  rw [argNames_NFI, fixedObjs]
  refine Binds.append ?_ (.cons hvargs .nil)
  split
  · rw [List.dropLast_eq_take, List.dropLast_eq_take, hbinds.length_eq]
    exact hbinds.take _
  · exact hbinds

/-- The Entry of the sender of a formatted call. -/
theorem invoke_formatEntry (h : Located pass message view pos) :
    invoke cc rt lastCallback (LibCFormatPass.sender cc.getAsString pass proc
        view pos).entry link objs tail =
      if accepts cc (.ofView view) objs && (tail.isNone || view.isVariadic) then
        (recorded cc rt pass message objs tail).bind fun v =>
          (link.next .adapt (leading proc ⟨pVoidType, some lastCallback⟩ ++
            (fixedObjs pass objs ++ [⟨cvargEntryPtrType, v⟩]))).bind
              (returned cc view.returnType)
      else none := by
  rw [invoke_typed (.ofView view) (.ofView view) .adapt
    (proc.callbackLookup ++ [.vargsDecl] ++ [pos.extract]) (pass.LNFI proc view)
    ((recorded cc rt pass message objs tail).map fun v =>
      leading proc ⟨pVoidType, some lastCallback⟩ ++
        (fixedObjs pass objs ++ [⟨cvargEntryPtrType, v⟩])) rfl]
  · rw [Option.bind_map]
    rfl
  · simp [LibCFormatPass.sender, FunctionBodySource.lines, LibCFormatPass.FI]
  · rw [LibCFormatPass.LNFI, ProcSnippet.layerInfo]
    split <;> rfl
  · intro haccept f hf
    obtain ⟨vars, hvars⟩ := Frame.lookedUp_eq lastCallback proc f
    have hbinds : Binds (f.lookedUp proc lastCallback).vars (FunctionInfo.ofView view).argNames
        objs := binds_lookedUp (hf.binds (namesApart_ofView view) haccept)
          (callbackName_notMem view)
    -- the frame at the `extract` line
    let f' := (f.lookedUp proc lastCallback).declare vargsName ⟨cvargEntryPtrType, none⟩
    have hexec : execLines cc rt lastCallback link
        (proc.callbackLookup ++ [.vargsDecl] ++ [pos.extract]) f =
          exec cc rt lastCallback link pos.extract f' := by
      rw [execLines_append, execLines_append, execLines_callbackLookup]
      simp [execLines, exec, f']
    rw [exec_extract tail h (hbinds.update (vargsName_notMem view) _)
      (by rw [← hf.params]; simp [hvars, Frame.declare])
      (by rw [← hf.tail]; simp [hvars, Frame.declare]) (Frame.vars_declare_self ..)] at hexec
    cases hrec : recorded cc rt pass message objs tail with
    | none =>
        rw [hrec] at hexec
        exact hexec
    | some v =>
        rw [hrec] at hexec
        refine ⟨f'.declare vargsName ⟨cvargEntryPtrType, v⟩, hexec, ?_, ?_, ?_, ?_⟩
        · rw [Frame.vars_declare_of_ne _ _ (by decide), Frame.vars_declare_of_ne _ _ (by decide),
            Frame.vars_lookedUp_of_ne (by decide)]
        · refine binds_layerInfo_iff.mpr ⟨binds_NFI ?_ (Frame.vars_declare_self ..), fun hfun => ?_⟩
          · exact (hbinds.update (vargsName_notMem view) _).update (vargsName_notMem view) _
          · rw [Frame.vars_declare_of_ne _ _ (by decide), Frame.vars_declare_of_ne _ _ (by decide),
              Frame.vars_lookedUp hfun]
        · rw [← hf.calls]
          simp [f', hvars, Frame.declare]
        · rw [← hf.result]
          simp [f', hvars, Frame.declare]

theorem mem_argNames_NFI {name : Str}
    (h : name ∈ (pass.NFI view).argNames) :
    name ∈ (FunctionInfo.ofView view).argNames ∨ name = vargsName := by
  rw [argNames_NFI, List.mem_append, List.mem_singleton] at h
  refine h.imp_left fun hmem => ?_
  split at hmem
  · exact List.mem_of_mem_dropLast hmem
  · exact hmem

theorem namesApart_NFI :
    NamesApart (pass.NFI view) := by
  obtain ⟨hnodup, hret, hretRef⟩ := namesApart_ofView view
  refine ⟨?_, fun hmem => ?_, fun hmem => ?_⟩
  · rw [argNames_NFI]
    refine List.nodup_append.mpr ⟨?_, List.nodup_singleton _, ?_⟩
    · split
      · exact (List.dropLast_sublist _).nodup hnodup
      · exact hnodup
    · rintro name hmem _ hvargs rfl
      refine vargsName_notMem view ?_
      rw [← List.mem_singleton.mp hvargs]
      split at hmem
      · exact List.mem_of_mem_dropLast hmem
      · exact hmem
  · exact (mem_argNames_NFI hmem).elim hret (by decide)
  · exact (mem_argNames_NFI hmem).elim hretRef (by decide)

theorem callbackName_notMem_NFI :
    callbackName ∉ (pass.NFI view).argNames :=
  fun hmem => (mem_argNames_NFI hmem).elim (callbackName_notMem view) (by decide)

/-- What the Caller of the receiver of a formatted call does with the arguments in front
and the packed rest. -/
def boxedReturn (cc : Compiler) (rt : Runtime V) (helper : CallHelper) (returnType : QualType)
    (callback : Option V) (fixed : List (Obj V)) (vargs : Option V) : Option (Outcome V) := do
  let argv1 ← fixed.mapM (cvargGet cc)
  if returnType.isVoidType then return ⟨[.boxed helper callback argv1 vargs .void], none⟩
  else do
    let t ← cc.retType returnType
    let t' ← cc.varType (getTypeString cc.getAsString returnType)
    let call := Call.boxed helper callback argv1 vargs (typeID cc t)
    let v ← unboxed t' (some (rt.owner call))
    if t = t' then return ⟨[call], some ⟨t', v⟩⟩ else none

/-- The lines behind the declaration of `ret`, up to the call. -/
theorem execLines_boxed {f : Frame V} {names : List Str} {fixed : List (Obj V)} {vargs : Obj V}
    {target : Option Str} {callback : Option (Obj V)} (ret : Option Str)
    (type : Variadic.CVargType) (helper : CallHelper) (hfixed : Binds f.vars names fixed)
    (htarget : target.mapM f.vars = some callback) (hvargs : f.vars vargsName = some vargs)
    (hret : match ret with
      | none => type = .void
      | some name => ∃ o, f.vars name = some o ∧ type = typeID cc o.type) :
    execLines cc rt lastCallback link
        [.fixedArgEntriesDecl names, .vretDecl, .vretInit ret, .callHelper helper target] f =
      (fixed.mapM (cvargGet cc)).map fun argv1 =>
        let call := Call.boxed helper (callback.bind Obj.val) argv1 vargs.val type
        { f with
          argv1, calls := f.calls ++ [call], vret := some (type, some (rt.owner call)) } := by
  simp only [execLines, List.foldlM_cons, List.foldlM_nil, exec, hfixed.mapM_eq,
    Option.bind_eq_bind, Option.bind_some, Option.pure_def]
  cases hargv1 : fixed.mapM (cvargGet cc) with
  | none => simp
  | some argv1 =>
      cases ret with
      | none =>
          subst hret
          simp [htarget, hvargs]
      | some name =>
          obtain ⟨o, ho, rfl⟩ := hret
          simp [ho, htarget, hvargs]

/-- The variables of the Caller of the receiver. -/
theorem binds_boxed {vargs : Obj V} {fixed : List (Obj V)} {vars : Str → Option (Obj V)}
    {count : Nat} (hcount : count ≤ fixed.length)
    (hbinds : Binds vars (pass.NFI view).argNames (fixed ++ [vargs])) :
    Binds vars ((FunctionInfo.ofView view).argNames.take count) (fixed.take count) ∧
      vars vargsName = some vargs := by
  have hlen := hbinds.length_eq
  rw [argNames_NFI] at hbinds hlen
  simp only [List.length_append, List.length_singleton, Nat.add_right_cancel_iff] at hlen
  constructor
  · have htake := hbinds.take count
    rw [List.take_append_of_le_length (hlen ▸ hcount),
      List.take_append_of_le_length hcount] at htake
    split at htake
    next hlist =>
      rw [if_pos hlist, List.length_dropLast] at hlen
      rwa [List.dropLast_eq_take, List.take_take, min_eq_left (by omega)] at htake
    next => exact htake
  · rw [hbinds.getElem?_eq (i := fixed.length) (by simp [← hlen])]
    simp

theorem lines_boxedCaller (h : Located pass message view pos) :
    (LibCFormatPass.receiver cc.getAsString pass proc view
        pos).caller.body.lines =
      SRC_emptyReturnDecl cc.getAsString (.ofView view) ++
        ([.fixedArgEntriesDecl
            ((FunctionInfo.ofView view).argNames.take (message.vargIdx - 1).toNat),
          .vretDecl, .vretInit (if view.returnType.isVoidType then none else some retName),
          .callHelper pass.callHelper (if proc.isFunction then none else some callbackName)] ++
        ((if view.returnType.isVoidType then []
          else [.vretValueAssign (getTypeString cc.getAsString view.returnType)]) ++
          SRC_returnRet (.ofView view))) := by
  simp [LibCFormatPass.receiver, FunctionBodySource.lines, LibCFormatPass.FI, h.fixed]

theorem invoke_boxedCaller {callback vargs : Obj V} {fixed : List (Obj V)}
    (h : Located pass message view pos) (hcount : (message.vargIdx - 1).toNat ≤ fixed.length) :
    invoke cc rt lastCallback (LibCFormatPass.receiver cc.getAsString pass
        proc view pos).caller link (leading proc callback ++ (fixed ++ [vargs])) none =
      if accepts cc (pass.LNFI proc view)
          (leading proc callback ++ (fixed ++ [vargs])) then
        boxedReturn cc rt pass.callHelper view.returnType
          ((leading proc callback).head?.bind Obj.val)
          (fixed.take (message.vargIdx - 1).toNat) vargs.val
      else none := by
  rw [invoke, lines_boxedCaller h]
  simp only [LibCFormatPass.receiver, Option.bind_eq_bind, Option.bind_some, Option.isNone_none,
    Bool.true_or, Bool.and_true]
  split
  next haccept =>
    have hstart : ∀ f, AtStart (pass.LNFI proc view)
        (leading proc callback ++ (fixed ++ [vargs])) none f →
          Binds f.vars ((FunctionInfo.ofView view).argNames.take (message.vargIdx - 1).toNat)
            (fixed.take (message.vargIdx - 1).toNat) ∧ f.vars vargsName = some vargs ∧
          (if proc.isFunction then none else some callbackName).mapM f.vars =
            some (leading proc callback).head? := by
      intro f hf
      obtain ⟨hbinds, hcallback⟩ := binds_layerInfo_iff.mp (hf.binds
        (namesApart_layerInfo proc namesApart_NFI callbackName_notMem_NFI) haccept)
      obtain ⟨hfixed, hvargs⟩ := binds_boxed hcount hbinds
      refine ⟨hfixed, hvargs, ?_⟩
      cases hfun : proc.isFunction with
      | true => simp [leading, hfun]
      | false => simp [leading, hfun, hcallback hfun]
    rw [execLines_append, execLines_emptyReturnDecl, FunctionInfo.returnType_ofView]
    simp only [SRC_returnRet, FunctionInfo.returnType_ofView]
    obtain hvoid | hvoid := view.returnType.isVoidType.eq_false_or_eq_true
    · obtain ⟨hfixed, hvargs, htarget⟩ := hstart (.ofCall ..) ⟨rfl, rfl, fun _ _ => rfl, rfl, rfl⟩
      simp only [hvoid, if_true, Option.bind_some, List.append_nil]
      rw [execLines_boxed none .void pass.callHelper hfixed htarget hvargs rfl, boxedReturn,
        hvoid, Option.map_map, Option.map_eq_bind]
      rfl
    · simp only [hvoid, Bool.false_eq_true, if_false]
      cases ht : cc.retType view.returnType with
      | none => simp [boxedReturn, hvoid, ht]
      | some t =>
          obtain ⟨hfixed, hvargs, htarget⟩ := hstart (.declare (.ofCall ..) retName ⟨t, none⟩)
            ⟨rfl, rfl, fun _ hne => Frame.vars_declare_of_ne _ _ hne, rfl, rfl⟩
          rw [Option.map_some, Option.bind_some, execLines_append,
            execLines_boxed (some retName) (typeID cc t) pass.callHelper hfixed htarget hvargs
              ⟨_, Frame.vars_declare_self .., rfl⟩]
          simp only [boxedReturn, hvoid, ht, Bool.false_eq_true, if_false, Option.bind_eq_bind,
            Option.bind_some]
          cases hargv1 : (fixed.take (message.vargIdx - 1).toNat).mapM (cvargGet cc) with
          | none => rfl
          | some argv1 =>
              simp only [Option.map_some, Option.bind_some, execLines, List.cons_append,
                List.nil_append, List.foldlM_cons, List.foldlM_nil, exec, Option.bind_eq_bind,
                Option.pure_def]
              cases cc.varType (getTypeString cc.getAsString view.returnType) with
              | none => rfl
              | some t' =>
                  simp only [Option.bind_some]
                  cases unboxed t' _ with
                  | none => rfl
                  | some v =>
                      by_cases heq : t = t'
                      · simp [heq, Frame.assign, Frame.declare, Frame.outcome, Frame.ofCall]
                      · simp [heq, Frame.assign, Frame.declare, Frame.ofCall]
  next => rfl

end Format

end Lorelei.TLC
