import Lorelei.TLC.CallsCarried
import Lorelei.TLC.Guards

/-!
# Which argument a statement is about

A position of the real signature is one of the Adapt layer's signature too, but there it
stands for the argument before it if a callback is in front, and for the packed variadic
part if that has taken the place of a `va_list`.
-/

namespace Lorelei.TLC

open Support Environment

/-! ## The signature of the Adapt layer -/

namespace Builder

variable (builder : Builder) (proc : ProcSnippet) (view : FunctionTypeView)

def hasVAList : Builder → Bool
  | .default => false
  | .format pass _ => pass.hasVAList

/-- What crosses: the arguments, or the fixed ones and the packed rest. -/
def crossingInfo : FunctionInfo :=
  match builder with
  | .default => .ofView view
  | .format pass _ => pass.NFI view

def crossingObjs {V : Type} (objs : List (Obj V)) (v : Option V) : List (Obj V) :=
  match builder with
  | .default => objs
  | .format pass _ => fixedObjs pass objs ++ [packedObj v]

def adaptInfo : FunctionInfo := proc.layerInfo (builder.crossingInfo view)

/-- What the Adapt layer is called with. -/
def adaptObjs {V : Type} (callback : Obj V) (objs : List (Obj V)) (v : Option V) : List (Obj V) :=
  leading proc callback ++ builder.crossingObjs objs v

end Builder

section Adapt

variable {V : Type} {cc : Compiler} {builder : Builder} {proc : ProcSnippet}
  {view : FunctionTypeView} {mode : Mode} {sources : ProcSources} {objs : List (Obj V)}
  {callback : Obj V} {v : Option V}

theorem argNames_adaptInfo :
    (builder.adaptInfo proc view).argNames =
      proc.leadingName ++ (builder.crossingInfo view).argNames :=
  argNames_layerInfo

theorem nodup_adaptInfo : (builder.adaptInfo proc view).argNames.Nodup := by
  cases builder with
  | default => exact namesApart_LFI.1
  | format pass message => exact namesApart_LNFI.1

/-- The layer as the builder leaves it. -/
theorem adapt_of_beginHandleProc (h : builder.beginHandleProc cc proc view mode = some sources) :
    sources.adapt.functionInfo = some (builder.adaptInfo proc view) ∧
      sources.adapt.body.forward = [] ∧ sources.adapt.body.backward = [] := by
  cases builder with
  | default =>
      obtain rfl := Option.some.inj h
      rw [DefaultBuilder.beginHandleProc]
      split <;> exact ⟨rfl, rfl, rfl⟩
  | format pass message =>
      obtain ⟨pos, -, rfl⟩ := Option.map_eq_some_iff.mp h
      split <;> exact ⟨rfl, rfl, rfl⟩

/-- The Entry of the sender calls the Adapt layer with these objects. -/
theorem send_calls_adapt {rt : Runtime V} {lastCallback : V} {tail : Option V}
    {cross : Option (Obj V) → List (Obj V) → Option (Obj V) →
      Option (List (Call V) × Option (Obj V))} {out : Outcome V}
    (h : builder.beginHandleProc cc proc view mode = some sources)
    (hmode : isSender mode proc.direction = true)
    (hrun : send cc rt lastCallback sources cross objs tail = some out) :
    ∃ v, (senderAdapt cc rt lastCallback sources cross
      (builder.adaptObjs proc ⟨pVoidType, some lastCallback⟩ objs v)).bind
        (returned cc view.returnType) = some out := by
  cases builder with
  | default =>
      obtain rfl := Option.some.inj h
      rw [DefaultBuilder.beginHandleProc, if_pos hmode, send, invoke_defaultEntry,
        Option.ite_none_right_eq_some] at hrun
      refine ⟨none, ?_⟩
      rw [DefaultBuilder.beginHandleProc, if_pos hmode, ← hrun.2, next_only]
      rfl
  | format pass message =>
      obtain ⟨pos, hpos, rfl⟩ := Option.map_eq_some_iff.mp h
      rw [if_pos hmode, send, invoke_formatEntry (located_of_positions hpos),
        Option.ite_none_right_eq_some] at hrun
      obtain ⟨v, -, hnext⟩ := Option.bind_eq_some_iff.mp hrun.2
      refine ⟨v, ?_⟩
      rw [if_pos hmode, ← hnext, next_only]
      rfl

/-- So does the Entry of the receiver, with what it takes out of the pack. -/
theorem receive_calls_adapt {rt : Runtime V} {lastCallback : V} {ret : Option (Obj V)}
    {out : List (Call V) × Option (Obj V)}
    (h : builder.beginHandleProc cc proc view mode = some sources)
    (hmode : isSender mode proc.direction = false)
    (hlen : (builder.crossingObjs objs v).length = (builder.crossingInfo view).arguments.length)
    (hrun : receive cc rt lastCallback proc view sources (leading proc callback).head?
      (builder.crossingObjs objs v) ret = some out) :
    unpacked cc view.returnType (receiverAdapt cc rt lastCallback proc view sources
      (builder.adaptObjs proc callback objs v)) ret = some out := by
  have hentry : sources.entry =
      proc.unpackingEntry cc.getAsString (builder.adaptInfo proc view)
        (builder.crossingInfo view) := by
    cases builder with
    | default =>
        obtain rfl := Option.some.inj h
        rw [DefaultBuilder.beginHandleProc, hmode]
        rfl
    | format pass message =>
        obtain ⟨pos, -, rfl⟩ := Option.map_eq_some_iff.mp h
        rw [hmode]
        rfl
  have hnames : NamesApart (builder.adaptInfo proc view) := by
    cases builder with
    | default => exact namesApart_LFI
    | format pass message => exact namesApart_LNFI
  have hcallback : callbackName ∉ (builder.crossingInfo view).argNames := by
    cases builder with
    | default => exact callbackName_notMem view
    | format pass message => exact callbackName_notMem_NFI
  have hreturn : (builder.crossingInfo view).returnType = view.returnType := by
    cases builder <;> rfl
  rw [receive, hentry] at hrun
  by_cases hreads : Reads cc (builder.crossingInfo view).arguments (builder.crossingObjs objs v)
  · rw [Builder.adaptInfo, invokePacked_unpackingEntry hnames hcallback hreads, next_only,
      hreturn] at hrun
    exact hrun
  · rw [Builder.adaptInfo, invokePacked_unpackingEntry_none hlen hreads] at hrun
    cases hrun

theorem length_crossingObjs (hlen : objs.length = view.argTypes.length) :
    (builder.crossingObjs objs v).length = (builder.crossingInfo view).argNames.length := by
  have hview := congrArg List.length (FunctionInfo.argNames_ofView view)
  rw [List.length_map, List.length_range] at hview
  cases builder with
  | default => exact hlen.trans hview.symm
  | format pass message =>
      show (fixedObjs pass objs ++ [packedObj v]).length = (pass.NFI view).argNames.length
      rw [argNames_NFI, List.length_append, List.length_append, length_fixedObjs]
      split
      · rw [List.length_dropLast, hview, hlen]
        rfl
      · rw [hview, hlen]
        rfl

theorem length_adaptObjs (hlen : objs.length = view.argTypes.length) :
    (builder.adaptInfo proc view).argNames.length =
      (builder.adaptObjs proc callback objs v).length := by
  rw [argNames_adaptInfo, Builder.adaptObjs, List.length_append, List.length_append,
    length_crossingObjs hlen, ProcSnippet.leadingName, leading]
  split <;> rfl

end Adapt

/-! ## Statements that are about an argument -/

section Hits

variable (getAsString : QualType → Str) (builder : Builder) (proc : ProcSnippet)
  (view : FunctionTypeView) (i : Nat)

/-- In every call of the Adapt layer the parameter of this name stands for the argument. -/
def CarriesArgument (name : Str) : Prop :=
  ∀ (V : Type) (callback : Obj V) (objs : List (Obj V)) (v : Option V),
    objs.length = view.argTypes.length →
      (Frame.ofCall (builder.adaptInfo proc view) (builder.adaptObjs proc callback objs v)
        none).vars name = objs[i]?

/-- The parameter of this name is declared with the argument's type. -/
def DeclaresAs (name type : Str) : Prop :=
  ∃ t, view.argTypes[i]? = some t ∧ (t, name) ∈ (builder.adaptInfo proc view).arguments ∧
    type = getTypeString getAsString t

def GuardLine.isFor : GuardLine → Bool
  | .argFilter _ idx .. => idx = i
  | .retFilter .. => false
  | .convertHostProcAddress _ => true

/-- The line names the parameter that carries the argument, at its type, and the index that
it gives is that parameter's place in the context that it gives. -/
def Hits : GuardLine → Prop
  | .argFilter type idx _ _ name context => CarriesArgument builder proc view i name ∧
      DeclaresAs getAsString builder proc view i name type ∧ context[idx]? = some name
  | .retFilter .. => False
  | .convertHostProcAddress name => CarriesArgument builder proc view i name ∧
      ∃ type, DeclaresAs getAsString builder proc view i name type

end Hits

/-- The passes that work on an argument by its position. -/
inductive Guard where
  | typeFilter (pass : TypeFilterPass)
  | getProcAddress

namespace Guard

variable (guard : Guard) (getAsString : QualType → Str) (proc : ProcSnippet)
  (view : FunctionTypeView) (mode : Mode)

/-- The test and then the begin hook, on the Adapt layer. -/
def beginHandleProc (adapt : ProcSource) : Option ProcSource :=
  match guard with
  | .typeFilter pass => (pass.testProc getAsString proc).bind fun message =>
      TypeFilterPass.beginHandleProc getAsString proc view mode message adapt
  | .getProcAddress => (GetProcAddressPass.testProc proc).bind fun nameIndex =>
      GetProcAddressPass.beginHandleProc proc mode nameIndex adapt

/-- The positions of the real signature that the pass works on. -/
def Selects (i : Nat) : Prop :=
  match guard with
  | .typeFilter pass => ∃ message, pass.testProc getAsString proc = some message ∧
      i ∈ message.filteredArgIndexes
  | .getProcAddress => GetProcAddressPass.isConverted proc mode = true ∧
      GetProcAddressPass.testProc proc = some (i + 1 : Int) ∧ i < view.argTypes.length

/-- The one statement that the pass makes of the argument is about the argument. -/
def NamesArgument (builder : Builder) (adapt : ProcSource) (i : Nat) : Prop :=
  ∃ adapt' line, guard.beginHandleProc getAsString proc view mode adapt = some adapt' ∧
    (adapt'.body.forward ++ adapt'.body.backward).filter (GuardLine.isFor i) = [line] ∧
      Hits getAsString builder proc view i line

end Guard

/-! ## Which argument a position stands for -/

section Positions

variable {getAsString : QualType → Str} {builder : Builder} {proc : ProcSnippet}
  {view : FunctionTypeView} {mode : Mode} {i : Nat} {name : Str}

theorem getElem?_crossingObjs {V : Type} {objs : List (Obj V)} {v : Option V} (hi : i < objs.length)
    (hlast : ¬ (builder.hasVAList = true ∧ i + 1 = objs.length)) :
    (builder.crossingObjs objs v)[i]? = objs[i]? := by
  cases builder with
  | default => rfl
  | format pass message =>
      show (fixedObjs pass objs ++ [packedObj v])[i]? = objs[i]?
      have hfixed : i < (fixedObjs pass objs).length := by
        rw [length_fixedObjs]
        split
        next hva =>
          have hne : i + 1 ≠ objs.length := fun heq => hlast ⟨hva, heq⟩
          omega
        next => exact hi
      rw [List.getElem?_append_left hfixed, fixedObjs]
      split
      next hva =>
        rw [fixedObjs, if_pos hva] at hfixed
        rw [List.getElem?_eq_getElem hfixed, List.getElem_dropLast, ← List.getElem?_eq_getElem]
      next => rfl

/-- The packed part stands where a `va_list` was. -/
theorem getLast_crossingObjs {V : Type} {objs : List (Obj V)} {v : Option V}
    (hva : builder.hasVAList = true) (hi : i + 1 = objs.length) :
    (builder.crossingObjs objs v)[i]? = some (packedObj v) := by
  cases builder with
  | default => exact nomatch hva
  | format pass message =>
      show (fixedObjs pass objs ++ [packedObj v])[i]? = _
      have hlen : (fixedObjs pass objs).length = i := by
        rw [length_fixedObjs, if_pos (show pass.hasVAList = true from hva)]
        omega
      rw [← hlen]
      exact List.getElem?_concat_length ..

/-- The position counts the arguments of the real signature in the Adapt layer too. -/
def Unshifted (builder : Builder) (proc : ProcSnippet) (view : FunctionTypeView) (i : Nat) : Prop :=
  proc.isFunction = true ∧ ¬ (builder.hasVAList = true ∧ i + 1 = view.argTypes.length)

/-- The name at a position carries the argument exactly if it is not shifted. -/
theorem carriesArgument_iff (hi : i < view.argTypes.length)
    (hname : (builder.adaptInfo proc view).argNames[i]? = some name) :
    CarriesArgument builder proc view i name ↔ Unshifted builder proc view i := by
  have hvars : ∀ {V : Type} (callback : Obj V) (objs : List (Obj V)) (v : Option V),
      objs.length = view.argTypes.length →
      (Frame.ofCall (builder.adaptInfo proc view) (builder.adaptObjs proc callback objs v)
        none).vars name = (builder.adaptObjs proc callback objs v)[i]? := fun _ _ _ hlen =>
    (binds_ofParams nodup_adaptInfo (length_adaptObjs hlen)).getElem?_eq hname
  constructor
  · intro h
    -- arguments that differ from each other and from everything else
    let objs := (List.range view.argTypes.length).map fun k => (⟨.void, some k⟩ : Obj Nat)
    have hlen : objs.length = view.argTypes.length := by simp [objs]
    have hget : ∀ k, k < view.argTypes.length → objs[k]? = some ⟨.void, some k⟩ := fun k hk => by
      simp [objs, hk]
    have heq := (hvars ⟨.void, none⟩ objs none hlen).symm.trans (h Nat _ objs none hlen)
    rw [hget i hi, Builder.adaptObjs, leading] at heq
    obtain hfun | hfun := proc.isFunction.eq_false_or_eq_true
    · refine ⟨hfun, ?_⟩
      rintro ⟨hva, hlast⟩
      rw [if_pos hfun, List.nil_append, getLast_crossingObjs hva (hlast.trans hlen.symm)] at heq
      cases heq
    · rw [hfun, if_neg Bool.false_ne_true, List.singleton_append] at heq
      cases i with
      | zero => cases heq
      | succ k =>
          rw [List.getElem?_cons_succ, getElem?_crossingObjs (by omega) (by omega),
            hget k (by omega)] at heq
          injection heq with heq
          injection heq with _ hval
          injection hval with hval
          omega
  · rintro ⟨hfun, hlast⟩ V callback objs v hlen
    rw [hvars _ _ _ hlen, Builder.adaptObjs, leading, if_pos hfun, List.nil_append]
    exact getElem?_crossingObjs (hlen ▸ hi) (hlen ▸ hlast)

/-- Where it is not shifted the parameter has the argument's type. -/
theorem declaresAs_of_unshifted (hi : i < view.argTypes.length) (h : Unshifted builder proc view i)
    (hname : (builder.adaptInfo proc view).argNames[i]? = some name) :
    DeclaresAs getAsString builder proc view i name
      (getTypeString getAsString view.argTypes[i]) := by
  obtain ⟨hfun, hlast⟩ := h
  refine ⟨view.argTypes[i], List.getElem?_eq_getElem hi, ?_, rfl⟩
  rw [FunctionInfo.argNames, List.getElem?_map] at hname
  obtain ⟨⟨t, name'⟩, harg, rfl⟩ := Option.map_eq_some_iff.mp hname
  have htypes : ((builder.adaptInfo proc view).arguments.map Prod.fst)[i]? =
      some view.argTypes[i] := by
    rw [Builder.adaptInfo, ProcSnippet.layerInfo, if_pos hfun]
    cases builder with
    | default =>
        show ((FunctionInfo.ofView view).arguments.map Prod.fst)[i]? = _
        rw [FunctionInfo.map_fst_arguments_ofView, List.getElem?_eq_getElem hi]
    | format pass message =>
        show ((pass.NFI view).arguments.map Prod.fst)[i]? = _
        have hfixed : (fixedTypes pass view)[i]? = some view.argTypes[i] := by
          rw [fixedTypes]
          split
          next hva =>
            have hlt : i < view.argTypes.dropLast.length := by
              have hne : i + 1 ≠ view.argTypes.length := fun heq => hlast ⟨hva, heq⟩
              rw [List.length_dropLast]
              omega
            rw [List.getElem?_eq_getElem hlt, List.getElem_dropLast]
          next => exact List.getElem?_eq_getElem hi
        rw [map_fst_arguments_NFI,
          List.getElem?_append_left (List.getElem?_eq_some_iff.mp hfixed).1, hfixed]
  rw [List.getElem?_map, harg] at htypes
  obtain rfl : t = view.argTypes[i] := Option.some.inj htypes
  exact List.mem_of_getElem? harg

theorem exists_name (builder : Builder) (proc : ProcSnippet) (hi : i < view.argTypes.length) :
    ∃ name, (builder.adaptInfo proc view).argNames[i]? = some name := by
  refine ⟨_, List.getElem?_eq_getElem (lt_of_lt_of_le hi ?_)⟩
  have hview := congrArg List.length (FunctionInfo.argNames_ofView view)
  rw [List.length_map, List.length_range] at hview
  rw [argNames_adaptInfo, List.length_append]
  refine le_add_left ?_
  cases builder with
  | default => exact hview.ge
  | format pass message =>
      show view.argTypes.length ≤ (pass.NFI view).argNames.length
      rw [argNames_NFI, List.length_append, List.length_singleton]
      split
      · rw [List.length_dropLast]
        omega
      · omega

end Positions

/-! ## The statements of the passes -/

section Statements

variable {getAsString : QualType → Str} {builder : Builder} {proc : ProcSnippet}
  {view : FunctionTypeView} {mode : Mode} {i : Nat}

/-- A document has one of the two layers. -/
theorem pushed_eq (lines : List GuardLine) : TypeFilterPass.pushed proc mode lines = lines := by
  rw [TypeFilterPass.pushed]
  cases isSender mode proc.direction <;> simp

theorem mem_filteredArgIndexes {pass : TypeFilterPass} :
    i ∈ pass.filteredArgIndexes getAsString view ↔ ∃ t, view.argTypes[i]? = some t ∧
      TypeFilterPass.isFiltered getAsString pass.procArgFilters t = true := by
  simp only [TypeFilterPass.filteredArgIndexes, List.mem_filterMap, Prod.exists,
    List.mk_mem_zipIdx_iff_getElem?, Option.ite_none_right_eq_some, Option.some.injEq]
  constructor
  · rintro ⟨t, _, ht, hfilter, rfl⟩
    exact ⟨t, ht, hfilter⟩
  · rintro ⟨t, ht, hfilter⟩
    exact ⟨t, i, ht, hfilter, rfl⟩

theorem nodup_filteredArgIndexes {pass : TypeFilterPass} :
    (pass.filteredArgIndexes getAsString view).Nodup := by
  have hmap : pass.filteredArgIndexes getAsString view = ((view.argTypes.zipIdx.filter fun arg =>
      TypeFilterPass.isFiltered getAsString pass.procArgFilters arg.1).map Prod.snd) := by
    rw [← List.filterMap_eq_map, List.filterMap_filter]
    rfl
  rw [hmap]
  refine (List.filter_sublist.map Prod.snd).nodup ?_
  rw [List.zipIdx_map_snd]
  exact List.nodup_range'

/-- Statements that are made of distinct positions, one of each. -/
theorem filter_isFor {f : Nat → Option GuardLine} (hfor : ∀ k line, f k = some line →
    ∀ i, line.isFor i = decide (k = i)) {indexes : List Nat} {lines : List GuardLine}
    (hlines : indexes.mapM f = some lines) (hnodup : indexes.Nodup) (hi : i ∈ indexes)
    {line : GuardLine}
    (hline : f i = some line) : lines.filter (GuardLine.isFor i) = [line] := by
  have hnone : ∀ {indexes : List Nat} {lines : List GuardLine},
      List.Forall₂ (fun k line => f k = some line) indexes lines → i ∉ indexes →
        lines.filter (GuardLine.isFor i) = [] := by
    intro indexes lines h hnot
    induction h with
    | nil => rfl
    | @cons k line' indexes lines hk _ ih =>
        obtain ⟨hne, hrest⟩ := not_or.mp (mt List.mem_cons.mpr hnot)
        rw [List.filter_cons, hfor k line' hk i, if_neg (by simpa using Ne.symm hne), ih hrest]
  have hforall := mapM_eq_some_iff.mp hlines
  clear hlines
  induction hforall with
  | nil => exact nomatch hi
  | @cons k line' indexes lines hk hlines ih =>
      obtain ⟨hk', hnodup⟩ := List.nodup_cons.mp hnodup
      rw [List.filter_cons, hfor k line' hk i]
      by_cases heq : k = i
      · subst heq
        obtain rfl := Option.some.inj (hk.symm.trans hline)
        rw [if_pos (by simp), hnone hlines hk']
      · rw [if_neg (by simpa using heq)]
        exact ih hnodup ((List.mem_cons.mp hi).resolve_left (Ne.symm heq))

theorem argumentName_adaptInfo (builder : Builder) (proc : ProcSnippet)
    (hi : i < view.argTypes.length) :
    ∃ name, (builder.adaptInfo proc view).argNames[i]? = some name ∧
      (builder.adaptInfo proc view).argumentName i = some name := by
  obtain ⟨name, hname⟩ := exists_name builder proc hi
  exact ⟨name, hname, argumentName_eq_some.mpr ⟨by omega, by simpa using hname⟩⟩

/-- The statements of the type filters, one for each position. -/
theorem statement_typeFilter {adapt : ProcSource} {pass : TypeFilterPass}
    (hinfo : adapt.functionInfo = some (builder.adaptInfo proc view))
    (hforward : adapt.body.forward = []) (hbackward : adapt.body.backward = [])
    (hview : proc.realFunctionTypeView = some view)
    (hsel : (Guard.typeFilter pass).Selects getAsString proc view mode i) :
    ∃ adapt' t name, (Guard.typeFilter pass).beginHandleProc getAsString proc view mode adapt =
        some adapt' ∧ view.argTypes[i]? = some t ∧
      (builder.adaptInfo proc view).argNames[i]? = some name ∧
        (adapt'.body.forward ++ adapt'.body.backward).filter (GuardLine.isFor i) =
          [.argFilter (getTypeString getAsString t) i proc.kind proc.direction name
            (builder.adaptInfo proc view).argNames] := by
  obtain ⟨message, htest, hmem⟩ := hsel
  have hmessage : message.filteredArgIndexes = pass.filteredArgIndexes getAsString view := by
    simp only [TypeFilterPass.testProc, hview, Option.bind_some,
      Option.ite_none_left_eq_some] at htest
    rw [← Option.some.inj htest.2]
  -- the statement for each position
  have hstatement : ∀ k ∈ message.filteredArgIndexes, ∃ t name, view.argTypes[k]? = some t ∧
      (builder.adaptInfo proc view).argNames[k]? = some name ∧
        TypeFilterPass.argFilterStatement getAsString proc view (builder.adaptInfo proc view) k =
          some (.argFilter (getTypeString getAsString t) k proc.kind proc.direction name
            (builder.adaptInfo proc view).argNames) := by
    intro k hk
    rw [hmessage] at hk
    obtain ⟨t, ht, -⟩ := mem_filteredArgIndexes.mp hk
    obtain ⟨name, hname, hargument⟩ := argumentName_adaptInfo builder proc
      (List.getElem?_eq_some_iff.mp ht).1
    refine ⟨t, name, ht, hname, ?_⟩
    rw [TypeFilterPass.argFilterStatement, ht, hargument]
    rfl
  obtain ⟨t, name, ht, hname, hline⟩ := hstatement i hmem
  obtain ⟨lines, hlines⟩ := exists_mapM fun k hk =>
    let ⟨_, _, _, _, hline⟩ := hstatement k hk
    ⟨_, hline⟩
  have hfor : ∀ k line, TypeFilterPass.argFilterStatement getAsString proc view
      (builder.adaptInfo proc view) k = some line → ∀ i, line.isFor i = decide (k = i) := by
    intro k line hk i
    obtain ⟨t, -, hk⟩ := Option.bind_eq_some_iff.mp hk
    obtain ⟨name, -, rfl⟩ := Option.map_eq_some_iff.mp hk
    rfl
  have hnodup : message.filteredArgIndexes.Nodup := hmessage ▸ nodup_filteredArgIndexes
  have hret : (if message.filterRet = true then [TypeFilterPass.retFilterStatement getAsString proc
      view (builder.adaptInfo proc view)] else []).filter (GuardLine.isFor i) = [] := by
    split <;> rfl
  obtain ⟨adapt', hbegin, hbody⟩ : ∃ adapt', (Guard.typeFilter pass).beginHandleProc getAsString
      proc view mode adapt = some adapt' ∧ adapt'.body.forward ++ adapt'.body.backward = lines ++
        if message.filterRet = true then [TypeFilterPass.retFilterStatement getAsString proc view
          (builder.adaptInfo proc view)] else [] := by
    simp only [Guard.beginHandleProc, htest, Option.bind_some, TypeFilterPass.beginHandleProc,
      TypeFilterPass.nameInfo, hinfo, Option.getD_some, hlines, Option.map_some, pushed_eq]
    exact ⟨_, rfl, by rw [hforward, hbackward, List.nil_append, List.nil_append]⟩
  refine ⟨adapt', t, name, hbegin, ht, hname, ?_⟩
  rw [hbody, List.filter_append, hret, List.append_nil, filter_isFor hfor hlines hnodup hmem hline]

/-- The statement that converts a looked up address. -/
theorem statement_getProcAddress {adapt : ProcSource}
    (hinfo : adapt.functionInfo = some (builder.adaptInfo proc view))
    (hforward : adapt.body.forward = []) (hbackward : adapt.body.backward = [])
    (hsel : Guard.getProcAddress.Selects getAsString proc view mode i) :
    ∃ adapt' name, Guard.getProcAddress.beginHandleProc getAsString proc view mode adapt =
        some adapt' ∧ (builder.adaptInfo proc view).argNames[i]? = some name ∧
        (adapt'.body.forward ++ adapt'.body.backward).filter (GuardLine.isFor i) =
          [.convertHostProcAddress name] := by
  obtain ⟨hconverted, htest, hi⟩ := hsel
  obtain ⟨name, hname, hargument⟩ := argumentName_adaptInfo builder proc hi
  have hidx : (i + 1 : Int) - 1 = i := by omega
  obtain ⟨adapt', hbegin, hbody⟩ : ∃ adapt', Guard.getProcAddress.beginHandleProc getAsString
      proc view mode adapt = some adapt' ∧
        adapt'.body.forward ++ adapt'.body.backward = [.convertHostProcAddress name] := by
    rw [Guard.beginHandleProc, htest, Option.bind_some, GetProcAddressPass.beginHandleProc,
      if_pos hconverted, hinfo, Option.bind_some, hidx, hargument, Option.map_some]
    refine ⟨_, rfl, ?_⟩
    rw [hforward, hbackward]
    rfl
  refine ⟨adapt', name, hbegin, hname, ?_⟩
  rw [hbody]
  rfl

variable {cc : Compiler} {sources : ProcSources}

theorem namesArgument_typeFilter {pass : TypeFilterPass}
    (hview : proc.realFunctionTypeView = some view)
    (hsources : builder.beginHandleProc cc proc view mode = some sources)
    (hsel : (Guard.typeFilter pass).Selects getAsString proc view mode i) :
    (Guard.typeFilter pass).NamesArgument getAsString proc view mode builder sources.adapt i ↔
      Unshifted builder proc view i := by
  obtain ⟨hinfo, hforward, hbackward⟩ := adapt_of_beginHandleProc hsources
  obtain ⟨adapt', t, name, hbegin, ht, hname, hline⟩ :=
    statement_typeFilter hinfo hforward hbackward hview hsel
  obtain ⟨hi, rfl⟩ := List.getElem?_eq_some_iff.mp ht
  constructor
  · rintro ⟨_, line, hbegin', hline', hhits⟩
    obtain rfl := Option.some.inj (hbegin.symm.trans hbegin')
    obtain rfl : _ = line := List.singleton_inj.mp (hline.symm.trans hline')
    exact (carriesArgument_iff hi hname).mp hhits.1
  · intro h
    exact ⟨adapt', _, hbegin, hline, (carriesArgument_iff hi hname).mpr h,
      declaresAs_of_unshifted hi h hname, hname⟩

theorem namesArgument_getProcAddress
    (hsources : builder.beginHandleProc cc proc view mode = some sources)
    (hsel : Guard.getProcAddress.Selects getAsString proc view mode i) :
    Guard.getProcAddress.NamesArgument getAsString proc view mode builder sources.adapt i ↔
      Unshifted builder proc view i := by
  obtain ⟨hinfo, hforward, hbackward⟩ := adapt_of_beginHandleProc hsources
  obtain ⟨adapt', name, hbegin, hname, hline⟩ :=
    statement_getProcAddress hinfo hforward hbackward hsel
  have hi := hsel.2.2
  constructor
  · rintro ⟨_, line, hbegin', hline', hhits⟩
    obtain rfl := Option.some.inj (hbegin.symm.trans hbegin')
    obtain rfl : _ = line := List.singleton_inj.mp (hline.symm.trans hline')
    exact (carriesArgument_iff hi hname).mp hhits.1
  · intro h
    exact ⟨adapt', _, hbegin, hline, (carriesArgument_iff hi hname).mpr h, _,
      declaresAs_of_unshifted hi h hname⟩

end Statements

/-- A statement is about the argument at the position that it was made for exactly if the
proc is a function and the argument is not a list that a builder has packed. -/
theorem namesArgument_iff {cc : Compiler} {builder : Builder} {proc : ProcSnippet}
    {view : FunctionTypeView} {mode : Mode} {sources : ProcSources} {i : Nat} (guard : Guard)
    (hview : proc.realFunctionTypeView = some view)
    (hsources : builder.beginHandleProc cc proc view mode = some sources)
    (hsel : guard.Selects cc.getAsString proc view mode i) :
    guard.NamesArgument cc.getAsString proc view mode builder sources.adapt i ↔
      Unshifted builder proc view i := by
  cases guard with
  | typeFilter pass => exact namesArgument_typeFilter hview hsources hsel
  | getProcAddress => exact namesArgument_getProcAddress hsources hsel

/-- A filter for `void *`. -/
def pointerFilter : TypeFilterPass := ⟨[pVoidType], []⟩

def visitView : FunctionTypeView := ⟨.void, [pVoidType, pVoidType], false⟩

/-- `void visit(void *data, void *item)`, or a callback of that type. -/
def visitProc (kind : ProcKind) : ProcSnippet where
  kind := kind
  direction := .guestToHost
  name := "visit".toList
  functionPointerType := .pointerTo (.functionProto .void [pVoidType, pVoidType] false)

def visitSources (kind : ProcKind) : ProcSources :=
  DefaultBuilder.beginHandleProc x86_64.getAsString (visitProc kind) visitView .guest

theorem selects_pointerFilter (kind : ProcKind) :
    (Guard.typeFilter pointerFilter).Selects x86_64.getAsString (visitProc kind) visitView .guest
      0 := by
  refine ⟨⟨[0, 1], false⟩, ?_, List.mem_cons_self⟩
  cases kind <;> decide +kernel

theorem visitSources_eq (kind : ProcKind) :
    Builder.default.beginHandleProc x86_64 (visitProc kind) visitView .guest =
      some (visitSources kind) := rfl

theorem namesArgument_visit :
    (Guard.typeFilter pointerFilter).NamesArgument x86_64.getAsString (visitProc .function)
        visitView .guest .default (visitSources .function).adapt 0 ↔
      Unshifted .default (visitProc .function) visitView 0 :=
  namesArgument_iff _ rfl (visitSources_eq .function) (selects_pointerFilter .function)

/-- The first argument of the callback is filtered under the name of the callback. -/
theorem not_namesArgument_callback :
    (visitProc .callback).realFunctionTypeView = some visitView ∧
      Builder.default.beginHandleProc x86_64 (visitProc .callback) visitView .guest =
        some (visitSources .callback) ∧
      (Guard.typeFilter pointerFilter).Selects x86_64.getAsString (visitProc .callback) visitView
        .guest 0 ∧
      ¬ (Guard.typeFilter pointerFilter).NamesArgument x86_64.getAsString (visitProc .callback)
        visitView .guest .default (visitSources .callback).adapt 0 := by
  refine ⟨rfl, rfl, selects_pointerFilter .callback, fun h => ?_⟩
  have hshift := (namesArgument_typeFilter rfl (visitSources_eq .callback)
    (selects_pointerFilter .callback)).mp h
  exact nomatch hshift.1

end Lorelei.TLC
