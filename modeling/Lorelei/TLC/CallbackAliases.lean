import Lorelei.ClangExtras.Spelling
import Lorelei.TLC.Generate
import Lorelei.TLC.StatReach

/-!
# Callbacks of trees and registered callbacks

Everything that the trees of the procs collect lies behind a function pointer that stat
reaches. Stat registers the pointer with the qualifiers it is found with, and
`resolveAlias` looks for the one without: the two meet for all callees of all trees
exactly if each of them is also reached behind an unqualified pointer
(`aliasesResolve_iff`).
-/

namespace Lorelei.TLC

open Support Worklist

variable {getAsString : QualType → Str} {readType : String → Option QualType}
  {tu : TranslationUnit} {config : ThunkConfig} {summary : ManifestSummary}
  {records : List RecordDecl} {fuel : Nat} {infos : List CallbackInfo} {t c : QualType}
  {tree : CallbackTree}

/-! ## What a tree collects -/

/-- A pointer to this function type, qualified or not, has the property. -/
def SomePointer (P : QualType → Prop) (c : QualType) : Prop :=
  c.isFunctionType = true ∧ ∃ quals, P (.pointer quals c)

theorem somePointer_of_callee? {P : QualType → Prop} (h : t.callee? = some c) (ht : P t) :
    SomePointer P c := by
  obtain ⟨quals, rfl, hfun⟩ := QualType.callee?_eq_some.mp h
  exact ⟨hfun, quals, ht⟩

/-- All callees of a tree lie behind pointers that have the property. -/
def CalleesIn (P : QualType → Prop) (tree : CallbackTree) : Prop :=
  ∀ c ∈ tree.callees, SomePointer P c

theorem calleesIn_unsupported (P : QualType → Prop) : CalleesIn P .unsupported := by
  intro c hc
  simp [CallbackTree.unsupported, CallbackTree.callees, CallbackTree.calleesOf] at hc

theorem calleesIn_noCallbacks (P : QualType → Prop) : CalleesIn P .noCallbacks := by
  intro c hc
  simp [CallbackTree.noCallbacks, CallbackTree.callees, CallbackTree.calleesOf] at hc

theorem mem_calleesOf {children : List (String × CallbackTree)} :
    c ∈ CallbackTree.calleesOf children ↔ ∃ p ∈ children, c ∈ p.2.callees := by
  induction children with
  | nil => simp [CallbackTree.calleesOf]
  | cons p children ih =>
      obtain ⟨name, child⟩ := p
      rw [CallbackTree.calleesOf, List.mem_append, ih]
      simp

/-- A node that is put together from callees and trees. -/
theorem calleesIn_node {P : QualType → Prop} {status : TreeStatus} {reach : Reach}
    {callbacks outCallbacks : List (String × QualType)} {children : List (String × CallbackTree)}
    (hcallbacks : ∀ p ∈ callbacks, SomePointer P p.2) (hchildren : ∀ p ∈ children, CalleesIn P p.2)
    (hout : ∀ p ∈ outCallbacks, SomePointer P p.2) :
    CalleesIn P (.node status reach callbacks children outCallbacks) := by
  intro c hc
  rw [CallbackTree.callees, List.mem_append, List.mem_append, mem_calleesOf] at hc
  rcases hc with (hc | ⟨p, hp, hc⟩) | hc
  · obtain ⟨p, hp, rfl⟩ := List.mem_map.mp hc
    exact hcallbacks p hp
  · exact hchildren p hp c hc
  · obtain ⟨p, hp, rfl⟩ := List.mem_map.mp hc
    exact hout p hp

theorem forall_mem_emplace {α : Type*} {Q : α → Prop} {name : String} {value : α}
    {map : List (String × α)} (hvalue : Q value) (hmap : ∀ p ∈ map, Q p.2) :
    ∀ p ∈ emplace name value map, Q p.2 := by
  intro p hp
  rcases mem_emplace hp with rfl | hp
  · exact hvalue
  · exact hmap p hp

/-- The property is kept from a type to the types it leads to. -/
def Follows (records : List RecordDecl) (P : QualType → Prop) : Prop :=
  ∀ t, P t → ∀ t' ∈ successors records t, P t'

/-- What the loop over the fields collects. -/
theorem calleesIn_buildFields {P : QualType → Prop} {mk : QualType → List Str → Option CallbackTree}
    {visited : List Str} {fields : List (String × QualType)}
    {callbacks callbacks' : List (String × QualType)}
    {children children' : List (String × CallbackTree)}
    (hmk : ∀ t visited tree, P t → mk t visited = some tree → CalleesIn P tree)
    (hfields : ∀ p ∈ fields, P p.2) (hcallbacks : ∀ p ∈ callbacks, SomePointer P p.2)
    (hchildren : ∀ p ∈ children, CalleesIn P p.2)
    (h : buildFields getAsString records mk fuel visited fields callbacks children =
      some (some (callbacks', children'))) :
    (∀ p ∈ callbacks', SomePointer P p.2) ∧ ∀ p ∈ children', CalleesIn P p.2 := by
  induction fields generalizing callbacks children with
  | nil =>
      cases h
      exact ⟨hcallbacks, hchildren⟩
  | cons field fields ih =>
      obtain ⟨name, type⟩ := field
      have htype := hfields _ List.mem_cons_self
      have hrest := fun p hp => hfields p (List.mem_cons_of_mem _ hp)
      rw [buildFields] at h
      cases hcallee : type.callee? with
      | some callee =>
          rw [hcallee] at h
          exact ih hrest (forall_mem_emplace (somePointer_of_callee? hcallee htype) hcallbacks)
            hchildren h
      | none =>
          rw [hcallee] at h
          dsimp only at h
          split at h
          case isTrue hvisited =>
            obtain ⟨carries, -, h⟩ := Option.bind_eq_some_iff.mp h
            cases carries with
            | true => exact nomatch Option.some.inj h
            | false => exact ih hrest hcallbacks hchildren h
          case isFalse hvisited =>
            obtain ⟨child, hchild, h⟩ := Option.bind_eq_some_iff.mp h
            split at h
            · exact nomatch Option.some.inj h
            · exact ih hrest hcallbacks
                (forall_mem_emplace (hmk _ _ _ htype hchild) hchildren) h
            · exact ih hrest hcallbacks hchildren h

/-- What the tree of a type collects. -/
theorem calleesIn_build {P : QualType → Prop} (hP : Follows records P) {visited : List Str}
    (ht : P t) (h : build getAsString records fuel t visited = some tree) : CalleesIn P tree := by
  induction fuel generalizing t visited tree with
  | zero => exact nomatch h
  | succ fuel ih =>
      rw [build] at h
      obtain ⟨bad, -, h⟩ := Option.bind_eq_some_iff.mp h
      split at h
      case isTrue => exact Option.some.inj h ▸ calleesIn_unsupported P
      case isFalse =>
        split at h
        case isTrue => exact Option.some.inj h ▸ calleesIn_noCallbacks P
        case isFalse hrecord =>
          obtain ⟨result, hfields, rfl⟩ := Option.map_eq_some_iff.mp h
          -- the record is the type itself or stands behind its pointer
          have hpeel : P (peelPointer t).2 := by
            cases t with
            | pointer quals pointee =>
                refine hP _ ht _ ?_
                rw [successors, if_neg]
                · exact List.mem_singleton_self pointee
                · intro hfun
                  cases pointee <;> simp_all [peelPointer, QualType.isFunctionType,
                    QualType.isRecordType]
            | _ => exact ht
          have hfieldsP : ∀ p ∈ fieldsOf records (peelPointer t).2, P p.2 := by
            intro p hp
            refine hP _ hpeel _ ?_
            generalize (peelPointer t).2 = t' at hp
            cases t' with
            | tag quals kind name => exact List.mem_map_of_mem hp
            | _ => exact absurd hp List.not_mem_nil
          split
          next => exact calleesIn_unsupported P
          next => exact calleesIn_noCallbacks P
          next callbacks children _ =>
            obtain ⟨hcallbacks, hchildren⟩ := calleesIn_buildFields
              (fun t visited tree ht hmk => ih ht hmk) hfieldsP (by simp) (by simp) hfields
            exact calleesIn_node hcallbacks hchildren (by simp)

/-- Every tree of a cache collects only what has the property. -/
def CacheIn (P : QualType → Prop) (cache : TreeCache) : Prop := ∀ p ∈ cache, CalleesIn P p.2

theorem calleesIn_cachedTree {P : QualType → Prop} (hP : Follows records P)
    {cache cache' : TreeCache} (hcache : CacheIn P cache) (ht : P t)
    (h : cachedTree getAsString records fuel cache t = some (cache', tree)) :
    CacheIn P cache' ∧ CalleesIn P tree := by
  rw [cachedTree] at h
  split at h
  next hlookup =>
    cases h
    obtain ⟨before, after, hmem, -⟩ := List.lookup_eq_some_iff.mp hlookup
    have hin : (getTypeString getAsString t, tree) ∈ cache := by
      rw [hmem]
      simp
    exact ⟨hcache, hcache _ hin⟩
  next =>
    obtain ⟨tree', hbuild, heq⟩ := Option.map_eq_some_iff.mp h
    cases heq
    have htree := calleesIn_build hP ht hbuild
    exact ⟨List.forall_mem_cons.mpr ⟨htree, hcache⟩, htree⟩

/-- What the tree of an argument list collects. -/
theorem calleesIn_argumentTree {P : QualType → Prop} (hP : Follows records P)
    {args : List (QualType × String)} {cache cache' : TreeCache}
    {callbacks outCallbacks : List (String × QualType)} {children : List (String × CallbackTree)}
    (hargs : ∀ p ∈ args, P p.1) (hcache : CacheIn P cache)
    (hcallbacks : ∀ p ∈ callbacks, SomePointer P p.2) (hchildren : ∀ p ∈ children, CalleesIn P p.2)
    (hout : ∀ p ∈ outCallbacks, SomePointer P p.2)
    (h : argumentTree getAsString records fuel args cache callbacks children outCallbacks =
      some (cache', tree)) : CacheIn P cache' ∧ CalleesIn P tree := by
  induction args generalizing cache callbacks children outCallbacks with
  | nil =>
      cases h
      refine ⟨hcache, ?_⟩
      split
      · exact calleesIn_noCallbacks P
      · exact calleesIn_node hcallbacks hchildren hout
  | cons arg args ih =>
      obtain ⟨type, name⟩ := arg
      have htype : P type := hargs _ List.mem_cons_self
      have hrest := fun p hp => hargs p (List.mem_cons_of_mem _ hp)
      rw [argumentTree] at h
      cases hcallee : type.callee? with
      | some callee =>
          rw [hcallee] at h
          exact ih hrest hcache
            (forall_mem_emplace (somePointer_of_callee? hcallee htype) hcallbacks) hchildren hout h
      | none =>
          rw [hcallee] at h
          dsimp only at h
          cases hpointee : type.getPointeeType.bind QualType.callee? with
          | some callee =>
              rw [hpointee] at h
              obtain ⟨pointee, hp, hcallee'⟩ := Option.bind_eq_some_iff.mp hpointee
              have hPpointee : P pointee := by
                cases type with
                | pointer quals p =>
                    cases hp
                    refine hP _ htype _ ?_
                    rw [successors, if_neg]
                    · exact List.mem_singleton_self _
                    · intro hfun
                      simp [QualType.callee?, hfun] at hcallee
                | _ => cases hp
              exact ih hrest hcache hcallbacks hchildren
                (forall_mem_emplace (somePointer_of_callee? hcallee' hPpointee) hout) h
          | none =>
              rw [hpointee] at h
              obtain ⟨⟨cache₁, tree₁⟩, hcached, h⟩ := Option.bind_eq_some_iff.mp h
              obtain ⟨hcache₁, htree₁⟩ := calleesIn_cachedTree hP hcache htype hcached
              dsimp only at h
              split at h
              · cases h
                exact ⟨hcache₁, calleesIn_unsupported P⟩
              · exact ih hrest hcache₁ hcallbacks (forall_mem_emplace htree₁ hchildren) hout h
              · exact ih hrest hcache₁ hcallbacks hchildren hout h

/-- What the trees of all procs collect. -/
theorem calleesIn_argumentTrees {P : QualType → Prop} (hP : Follows tu.records P)
    {snippets : List ProcSnippet} {cache : TreeCache} {trees : List CallbackTree}
    (hargs : ∀ proc ∈ snippets, ∀ view, proc.realFunctionTypeView = some view →
      ∀ t ∈ view.argTypes, P t)
    (hcache : CacheIn P cache)
    (h : argumentTrees getAsString tu fuel snippets cache = some trees) :
    ∀ tree ∈ trees, CalleesIn P tree := by
  induction snippets generalizing cache trees with
  | nil =>
      cases h
      simp
  | cons proc snippets ih =>
      rw [argumentTrees] at h
      obtain ⟨⟨cache₁, tree₁⟩, htree, h⟩ := Option.bind_eq_some_iff.mp h
      obtain ⟨trees₁, htrees, rfl⟩ := Option.map_eq_some_iff.mp h
      have htypes : ∀ t ∈ (proc.realFunctionTypeView.map FunctionTypeView.argTypes).getD [],
          P t := by
        intro t ht
        cases hview : proc.realFunctionTypeView with
        | none => simp [hview] at ht
        | some view => exact hargs proc List.mem_cons_self view hview t (by simpa [hview] using ht)
      have hproc : ∀ p ∈ ((proc.realFunctionTypeView.map FunctionTypeView.argTypes).getD []).mapIdx
          (fun i type => (type, "arg" ++ toString (i + 1))), P p.1 := by
        intro p hp
        obtain ⟨i, hi, rfl⟩ := List.mem_mapIdx.mp hp
        exact htypes _ (List.getElem_mem hi)
      obtain ⟨hcache₁, htree₁⟩ := calleesIn_argumentTree hP hproc hcache (by simp) (by simp)
        (by simp) htree
      exact List.forall_mem_cons.mpr ⟨htree₁,
        ih (fun proc hmem => hargs proc (List.mem_cons_of_mem _ hmem)) hcache₁ htrees⟩

/-! ## The maps of the two commands -/

/-- The two commands collect the same functions and the same overlays of functions. -/
theorem docMaps_eq (getAsString : QualType → Str) (tu : TranslationUnit) (name : String) :
    (docMaps getAsString tu).functionByName name = (matchAST getAsString tu).1.functionMap name ∧
      ((docMaps getAsString tu).functionDescByName name).map Desc.overlayType =
        (matchAST getAsString tu).1.procFnDescDataMap name := by
  rw [docMaps, matchAST]
  induction tu.decls using List.reverseRecOn with
  | nil => exact ⟨rfl, rfl⟩
  | append_singleton decls decl ih =>
      rw [List.foldl_concat, List.foldl_concat]
      generalize decls.foldl (collectDecl getAsString) {} = maps at ih ⊢
      generalize decls.foldl (matchCallback getAsString) ({}, []) = r at ih ⊢
      cases decl with
      | function name' decl =>
          refine ⟨?_, ih.2⟩
          by_cases heq : name = name'
          · simp [collectDecl, matchCallback, heq]
          · simpa [collectDecl, matchCallback, heq] using ih.1
      | typedef name' type =>
          rw [matchCallback]
          split <;> exact ih
      | procFnDesc function desc =>
          refine ⟨ih.1, ?_⟩
          by_cases heq : name = function
          · simp [collectDecl, matchCallback, heq]
          · simpa [collectDecl, matchCallback, heq] using ih.2
      | procCbDesc type nameHint typedefName desc =>
          rw [collectDecl]
          split <;> exact ih

/-- The overlay of a function is a function pointer. -/
theorem isFunctionPointerType_of_functionDesc {name : String} {desc : Desc} {overlay : QualType}
    (h : (docMaps getAsString tu).functionDescByName name = some desc)
    (hoverlay : desc.overlayType = some overlay) : overlay.isFunctionPointerType = true := by
  rw [docMaps] at h
  generalize tu.decls = decls at h
  induction decls using List.reverseRecOn with
  | nil => exact nomatch h
  | append_singleton decls d ih =>
      rw [List.foldl_concat] at h
      cases d with
      | function name' decl => exact ih h
      | typedef name' type => exact ih h
      | procFnDesc function desc' =>
          by_cases heq : name = function
          · subst heq
            simp only [collectDecl, Function.update_self, Option.some.injEq] at h
            subst h
            obtain ⟨raw, -, hraw⟩ := Option.bind_eq_some_iff.mp hoverlay
            exact isFunctionPointerType_of_extractOverlayType hraw
          · simp only [collectDecl, ne_eq, heq, not_false_eq_true, Function.update_of_ne] at h
            exact ih h
      | procCbDesc type nameHint typedefName desc' =>
          rw [collectDecl] at h
          split at h <;> exact ih h

/-- The descriptor of a callback comes from a declaration that stat handles too. -/
theorem overlay_mem_collectCalls {sig : Str} {desc : Desc} {overlay : QualType}
    (h : (docMaps getAsString tu).callbackDescBySignature sig = some desc)
    (hoverlay : desc.overlayType = some overlay) :
    overlay.isFunctionPointerType = true ∧
      ∃ call ∈ (matchAST getAsString tu).2, call.seedType = overlay ∧ call.includeSeed = true := by
  rw [docMaps] at h
  rw [matchAST]
  generalize tu.decls = decls at h ⊢
  induction decls using List.reverseRecOn with
  | nil => exact nomatch h
  | append_singleton decls decl ih =>
      rw [List.foldl_concat] at h ⊢
      generalize decls.foldl (matchCallback getAsString) ({}, []) = r at ih ⊢
      have hold : (decls.foldl (collectDecl getAsString) {}).callbackDescBySignature sig =
          some desc → overlay.isFunctionPointerType = true ∧
            ∃ call ∈ (matchCallback getAsString r decl).2, call.seedType = overlay ∧
              call.includeSeed = true := by
        intro hold
        obtain ⟨hp, call, hcall, hseed⟩ := ih hold
        refine ⟨hp, call, ?_, hseed⟩
        cases decl with
        | typedef name type =>
            rw [matchCallback]
            split <;> exact hcall
        | procCbDesc type nameHint typedefName desc => exact List.mem_append_left _ hcall
        | _ => exact hcall
      cases decl with
      | function name decl => exact hold h
      | typedef name type => exact hold h
      | procFnDesc function desc => exact hold h
      | procCbDesc type nameHint typedefName desc' =>
          rw [collectDecl] at h
          cases htype : extractOverlayType type with
          | none =>
              rw [htype] at h
              exact hold h
          | some type' =>
              rw [htype] at h
              by_cases hsig : sig = getTypeString getAsString type'
              · subst hsig
                simp only [Function.update_self, Option.some.injEq] at h
                subst h
                obtain ⟨raw, -, hraw⟩ := Option.bind_eq_some_iff.mp hoverlay
                refine ⟨isFunctionPointerType_of_extractOverlayType hraw, ?_⟩
                simp only [matchCallback, handleProcCbDesc, htype, hoverlay]
                exact ⟨_, List.mem_append_right _ (List.mem_cons_of_mem _ List.mem_cons_self),
                  rfl, rfl⟩
              · simp only [ne_eq, hsig, not_false_eq_true, Function.update_of_ne] at h
                exact hold h

/-! ## The arguments of the procs -/

/-- The summary is what stat has saved for the config. -/
structure Saved (getAsString : QualType → Str) (tu : TranslationUnit) (config : ThunkConfig)
    (infos : List CallbackInfo) (summary : ManifestSummary) : Prop where
  callbacks : summary.callbacks = infos.map fun info => (info.signature, info.alias_)
  functions : ∀ dir, summary.functions dir = (statFunctions getAsString tu config dir).1

/-- The compiler reads the spelling of a reached function pointer in the bridge. -/
def ReadsBack (getAsString : QualType → Str) (readType : String → Option QualType)
    (tu : TranslationUnit) (config : ThunkConfig) : Prop :=
  ∀ t, Reached getAsString tu config t → t.isFunctionPointerType = true →
    readType (String.ofList (getTypeString getAsString t)) = some t

theorem follows_reached : Follows tu.records (Reached getAsString tu config) := by
  rintro t ⟨call, hcall, item, hitem, hleads⟩ t' ht'
  exact ⟨call, hcall, item, hitem, hleads.tail ht'⟩

theorem mem_signatureTypes_of_view {view : FunctionTypeView}
    (h : FunctionTypeView.ofFunctionType c = some view) :
    ∀ t ∈ view.argTypes, t ∈ signatureTypes c := by
  intro t ht
  cases c with
  | functionProto returnType paramTypes isVariadic =>
      cases h
      exact List.mem_append_right _ ht
  | functionNoProto returnType =>
      cases h
      exact absurd ht List.not_mem_nil
  | _ => exact nomatch h

/-- The parameters behind a function pointer that is reached. -/
theorem reached_argTypes_of_reached {view : FunctionTypeView}
    (ht : Reached getAsString tu config t) (hp : t.isFunctionPointerType = true)
    (hview : FunctionTypeView.ofType t = some view) :
    ∀ a ∈ view.argTypes, Reached getAsString tu config a := by
  obtain ⟨quals, c, rfl, hfun⟩ := QualType.isFunctionPointerType_iff.mp hp
  intro a ha
  refine follows_reached _ ht a ?_
  rw [successors, if_pos hfun]
  exact mem_signatureTypes_of_view hview a ha

/-- The parameters of a function whose own pointer is not registered. -/
theorem reached_argTypes_of_call {view : FunctionTypeView} {call : CollectCall}
    (hcall : call ∈ collectCalls getAsString tu config) (hseed : call.includeSeed = false)
    (hview : FunctionTypeView.ofType call.seedType = some view)
    (hp : call.seedType.isFunctionPointerType = true) :
    ∀ a ∈ view.argTypes, Reached getAsString tu config a := by
  obtain ⟨quals, c, heq, hfun⟩ := QualType.isFunctionPointerType_iff.mp hp
  intro a ha
  rw [heq] at hview
  have hmem := mem_signatureTypes_of_view hview a ha
  rw [← map_fst_signatureItems call.seedOrigin] at hmem
  obtain ⟨item, hitem, rfl⟩ := List.mem_map.mp hmem
  refine ⟨call, hcall, item, ?_, .refl⟩
  simp [CollectCall.stack, hseed, heq, QualType.callee?, hfun, hitem]

/-- The calls for a requested function. -/
theorem functionCalls_subset {dir : ProcDirection} {name : String} {call : CollectCall}
    (hname : name ∈ config.functions dir)
    (hcall : call ∈ functionCalls (matchAST getAsString tu).1 dir name) :
    call ∈ collectCalls getAsString tu config := by
  rw [collectCalls]
  cases dir with
  | guestToHost =>
      exact List.mem_append_left _ (List.mem_append_left _ (List.mem_append_right _
        (List.mem_flatMap.mpr ⟨name, hname, hcall⟩)))
  | hostToGuest =>
      exact List.mem_append_left _ (List.mem_append_right _
        (List.mem_flatMap.mpr ⟨name, hname, hcall⟩))

theorem reached_function_argTypes (hsaved : Saved getAsString tu config infos summary)
    {dir : ProcDirection} {p : Proc} {proc : ProcSnippet} {view : FunctionTypeView}
    (hp : p ∈ procs summary (unitHeaders tu readType summary) .function dir)
    (hproc : procSnippet getAsString readType tu .function dir p = some proc)
    (hview : proc.realFunctionTypeView = some view) :
    ∀ a ∈ view.argTypes, Reached getAsString tu config a := by
  obtain ⟨decl, hdecl, rfl⟩ := Option.map_eq_some_iff.mp hproc
  obtain ⟨hfun, hdesc⟩ := docMaps_eq getAsString tu p.key
  have hname : p.key ∈ config.functions dir := by
    obtain ⟨name, hname, rfl⟩ := List.mem_map.mp hp
    rw [Finset.mem_sort, functionDecls, Finset.mem_filter, hsaved.functions, statFunctions,
      Finset.mem_filter, List.mem_toFinset] at hname
    exact hname.2.1
  rw [hdecl] at hfun
  cases hoverlay : ((docMaps getAsString tu).functionDescByName p.key).bind Desc.overlayType with
  | none =>
      have hreal : FunctionTypeView.ofType (.pointerTo decl.type) = some view := by
        rw [ProcSnippet.realFunctionTypeView, ProcSnippet.realFunctionPointerType,
          ProcSnippet.overlayType] at hview
        simpa [hoverlay] using hview
      have hfunction : decl.type.isFunctionType = true := by
        cases htype : decl.type <;> rw [htype] at hreal <;>
          first | rfl | cases hreal
      have hcall : ⟨.pointerTo decl.type, "Config[" ++ sectionName dir ++ "]:" ++ p.key, "", false,
          (matchAST getAsString tu).1.namedCallbackAliasMap⟩ ∈
            functionCalls (matchAST getAsString tu).1 dir p.key := by
        rw [functionCalls, ← hfun]
        exact List.mem_cons_self
      exact reached_argTypes_of_call (functionCalls_subset hname hcall) rfl hreal hfunction
  | some overlay =>
      have hreal : FunctionTypeView.ofType overlay = some view := by
        rw [ProcSnippet.realFunctionTypeView, ProcSnippet.realFunctionPointerType,
          ProcSnippet.overlayType] at hview
        simpa [hoverlay] using hview
      obtain ⟨desc, hdesc', hdescOverlay⟩ := Option.bind_eq_some_iff.mp hoverlay
      rw [hdesc', Option.map_some, hdescOverlay] at hdesc
      have hcall : ⟨overlay, "Config[" ++ sectionName dir ++ "]:" ++ p.key ++ "@overlay", "", false,
          (matchAST getAsString tu).1.namedCallbackAliasMap⟩ ∈
            functionCalls (matchAST getAsString tu).1 dir p.key := by
        rw [functionCalls, ← hfun, ← hdesc]
        exact List.mem_cons_of_mem _ List.mem_cons_self
      exact reached_argTypes_of_call (functionCalls_subset hname hcall) rfl hreal
        (isFunctionPointerType_of_functionDesc hdesc' hdescOverlay)

/-- A callback of the document is one that stat has reached. -/
theorem reached_of_mem_procs
    (hstat : stat getAsString tu config fuel = some infos)
    (hsaved : Saved getAsString tu config infos summary)
    (hread : ReadsBack getAsString readType tu config) {dir : ProcDirection} {p : Proc}
    (hp : p ∈ procs summary (unitHeaders tu readType summary) .callback dir)
    (ht : readType p.key = some t) :
    Reached getAsString tu config t ∧ t.isFunctionPointerType = true := by
  have hmem : p.key ∈ infos.map CallbackInfo.signature := by
    have hbridge := List.mem_map_of_mem (f := Prod.fst) (mem_procs_callback.mp hp).1
    rw [map_fst_bridge, hsaved.callbacks, List.map_map] at hbridge
    exact hbridge
  rw [mem_foldlM_collect hstat] at hmem
  rcases hmem with ⟨call, hcall, items, hitems, item, hitem, hitemp, heq⟩ | hnil
  · obtain ⟨seed, hseed, hreach⟩ := reaches_of_mem hitems hitem
    have hreached : Reached getAsString tu config item.1 :=
      ⟨call, hcall, seed, hseed, leads_of_reaches hreach⟩
    have hback := hread item.1 hreached hitemp
    rw [← heq, ht] at hback
    obtain rfl := Option.some.inj hback
    exact ⟨hreached, hitemp⟩
  · exact absurd hnil (by simp)

theorem reached_callback_argTypes
    (hstat : stat getAsString tu config fuel = some infos)
    (hsaved : Saved getAsString tu config infos summary)
    (hread : ReadsBack getAsString readType tu config) {dir : ProcDirection} {p : Proc}
    {proc : ProcSnippet} {view : FunctionTypeView}
    (hp : p ∈ procs summary (unitHeaders tu readType summary) .callback dir)
    (hproc : procSnippet getAsString readType tu .callback dir p = some proc)
    (hview : proc.realFunctionTypeView = some view) :
    ∀ a ∈ view.argTypes, Reached getAsString tu config a := by
  obtain ⟨type, htype, rfl⟩ := Option.map_eq_some_iff.mp hproc
  rw [ProcSnippet.realFunctionTypeView, ProcSnippet.realFunctionPointerType,
    ProcSnippet.overlayType] at hview
  cases hoverlay : ((docMaps getAsString tu).callbackDescBySignature p.key.toList).bind
      Desc.overlayType with
  | none =>
      obtain ⟨hreached, hfp⟩ := reached_of_mem_procs hstat hsaved hread hp htype
      exact reached_argTypes_of_reached hreached hfp (by simpa [hoverlay] using hview)
  | some overlay =>
      obtain ⟨desc, hdesc, hdescOverlay⟩ := Option.bind_eq_some_iff.mp hoverlay
      obtain ⟨hfp, call, hcall, rfl, hseed⟩ := overlay_mem_collectCalls hdesc hdescOverlay
      have hreached : Reached getAsString tu config call.seedType := by
        refine ⟨call, ?_, (call.seedType, call.seedOrigin), ?_, .refl⟩
        · rw [collectCalls]
          exact List.mem_append_left _ (List.mem_append_left _ (List.mem_append_left _ hcall))
        · simp [CollectCall.stack, hseed]
      exact reached_argTypes_of_reached hreached hfp (by simpa [hoverlay] using hview)

/-- Whatever the trees of the document collect lies behind a pointer that stat reaches. -/
theorem calleesIn_reached (hstat : stat getAsString tu config fuel = some infos)
    (hsaved : Saved getAsString tu config infos summary)
    (hread : ReadsBack getAsString readType tu config) {fuel' : Nat} {trees : List CallbackTree}
    (htrees : argumentTrees getAsString tu fuel' (procSnippets getAsString readType tu summary) [] =
      some trees) : ∀ tree ∈ trees, CalleesIn (Reached getAsString tu config) tree := by
  refine calleesIn_argumentTrees follows_reached (fun proc hproc view hview => ?_)
    (by simp [CacheIn])
    htrees
  obtain ⟨kind, -, hkind⟩ := List.mem_flatMap.mp hproc
  obtain ⟨dir, -, hdir⟩ := List.mem_flatMap.mp hkind
  obtain ⟨p, hp, hsnippet⟩ := List.mem_filterMap.mp hdir
  cases kind with
  | function => exact reached_function_argTypes hsaved hp hsnippet hview
  | callback => exact reached_callback_argTypes hstat hsaved hread hp hsnippet hview

/-! ## Aliases -/

/-- A callee has an alias if its unqualified pointer is a signature of the summary that the
compiler can read. -/
theorem isSome_resolveAlias_iff : (resolveAlias getAsString readType tu summary c).isSome = true ↔
    String.ofList (getTypeString getAsString (.pointerTo c)) ∈ summary.callbacks.map Prod.fst ∧
      (readType (String.ofList (getTypeString getAsString (.pointerTo c)))).isSome = true := by
  rw [resolveAlias, callbackTypes_eq, List.lookup_isSome_iff, ← map_fst_bridge]
  simp only [namedCallbackBySignature, unitHeaders, List.mem_filter, decide_eq_true_eq,
    Finset.mem_filter, List.mem_toFinset, beq_iff_eq]
  constructor
  · rintro ⟨entry, ⟨hmem, -, hread⟩, heq⟩
    rw [heq]
    exact ⟨List.mem_map_of_mem hmem, hread⟩
  · rintro ⟨hmem, hread⟩
    obtain ⟨entry, hentry, heq⟩ := List.mem_map.mp hmem
    refine ⟨entry, ⟨hentry, ?_, heq ▸ hread⟩, heq.symm⟩
    rw [← map_fst_bridge]
    exact List.mem_map_of_mem hentry

/-- Every callee of the trees is registered, and its alias is found. -/
def AliasesResolve (getAsString : QualType → Str) (readType : String → Option QualType)
    (tu : TranslationUnit) (infos : List CallbackInfo) (summary : ManifestSummary)
    (trees : List CallbackTree) : Prop :=
  ∀ tree ∈ trees, ∀ c ∈ tree.callees,
    String.ofList (getTypeString getAsString (.pointerTo c)) ∈ infos.map CallbackInfo.signature ∧
      (resolveAlias getAsString readType tu summary c).isSome = true

/-- Aliases are found for all callees of all trees exactly if every callee that a qualified
function pointer leads to can also be reached behind an unqualified one. -/
theorem aliasesResolve_iff (hspell : SpellsApart getAsString tu config)
    (hread : ReadsBack getAsString readType tu config)
    (hstat : stat getAsString tu config fuel = some infos)
    (hsaved : Saved getAsString tu config infos summary) {fuel' : Nat} {trees : List CallbackTree}
    (htrees : argumentTrees getAsString tu fuel' (procSnippets getAsString readType tu summary) [] =
      some trees) :
    AliasesResolve getAsString readType tu infos summary trees ↔
      ∀ tree ∈ trees, ∀ c ∈ tree.callees, ∀ quals, quals ≠ {} →
        Reached getAsString tu config (.pointer quals c) →
          Reached getAsString tu config (.pointerTo c) := by
  have hcallees := calleesIn_reached hstat hsaved hread htrees
  have hregistered : ∀ tree ∈ trees, ∀ c ∈ tree.callees,
      (String.ofList (getTypeString getAsString (.pointerTo c)) ∈
        infos.map CallbackInfo.signature ↔ Reached getAsString tu config (.pointerTo c)) := by
    intro tree htree c hc
    obtain ⟨hfun, quals, hreached⟩ := hcallees tree htree c hc
    exact mem_stat_iff hspell hstat (.inr ⟨quals, c, hreached, rfl⟩) hfun
  constructor
  · intro hresolve tree htree c hc quals _ _
    exact (hregistered tree htree c hc).mp (hresolve tree htree c hc).1
  · intro hcond tree htree c hc
    obtain ⟨hfun, quals, hreached⟩ := hcallees tree htree c hc
    have hplain : Reached getAsString tu config (.pointerTo c) := by
      by_cases hquals : quals = {}
      · rw [hquals] at hreached
        exact hreached
      · exact hcond tree htree c hc quals hquals hreached
    have hmem := (hregistered tree htree c hc).mpr hplain
    refine ⟨hmem, isSome_resolveAlias_iff.mpr ⟨?_, by rw [hread _ hplain hfun]; rfl⟩⟩
    rw [hsaved.callbacks, List.map_map]
    exact hmem

/-! ## A structure with a callback -/

section Ops

/-- `void (int)`. -/
def notifyType : QualType := .functionProto .void [.builtin {} .int] false

/-- `struct ops *`. -/
def opsPointer : QualType := .pointerTo (.tag {} .struct "ops")

/-- `void (*)(int)` or `void (*const)(int)`. -/
def notifyPointer (isConst : Bool) : QualType := .pointer ⟨isConst, false, false⟩ notifyType

/-- `struct ops { void (*notify)(int); }; void set_ops(struct ops *ops);`, where the field
may be `const`. -/
def opsUnit (isConst : Bool) : TranslationUnit where
  records := [⟨.struct, "ops", [("notify", notifyPointer isConst)]⟩]
  decls := [.function "set_ops" { type := .functionProto .void [opsPointer] false }]

def opsConfig : ThunkConfig where
  functions
    | .guestToHost => ["set_ops"]
    | .hostToGuest => []
  callbacks := []

/-- The spelling of the callback, with the qualifier of the field. -/
def opsSignature (isConst : Bool) : String :=
  String.ofList (getTypeString QualType.getAsString (notifyPointer isConst))

def opsSummary (isConst : Bool) : ManifestSummary where
  functions
    | .guestToHost => {"set_ops"}
    | .hostToGuest => ∅
  callbacks := [(opsSignature isConst, "")]
  sorted := List.pairwise_singleton _ _
  distinct := List.nodup_singleton _

/-- The compiler, as far as it reads this signature. -/
def opsReadType (isConst : Bool) (signature : String) : Option QualType :=
  if signature = opsSignature isConst then some (notifyPointer isConst) else none

def opsInfos (isConst : Bool) : List CallbackInfo :=
  [⟨opsSignature isConst, "", "Config[Function]:set_ops@arg1@ptr@notify"⟩]

/-- The tree of `set_ops`, and those of the callback in both directions. -/
def opsTrees : List CallbackTree :=
  [.node .hasCallbacks .byValue [] [("arg1", .node .hasCallbacks .byPointer
    [("notify", notifyType)] [] [])] [], .noCallbacks, .noCallbacks]

theorem stat_ops (isConst : Bool) :
    stat QualType.getAsString (opsUnit isConst) opsConfig 10 = some (opsInfos isConst) := by
  cases isConst <;> rfl

theorem procs_ops (isConst : Bool) (kind : ProcKind) (dir : ProcDirection) :
    procs (opsSummary isConst) (unitHeaders (opsUnit isConst) (opsReadType isConst)
      (opsSummary isConst)) kind dir =
        match kind, dir with
        | .function, .guestToHost => [⟨"set_ops", "set_ops"⟩]
        | .function, .hostToGuest => []
        | .callback, _ => [⟨"PFN_UnknownCallback_1", opsSignature isConst⟩] := by
  cases kind with
  | function =>
      cases dir with
      | guestToHost =>
          have hdecls : functionDecls (opsSummary isConst) (unitHeaders (opsUnit isConst)
            (opsReadType isConst) (opsSummary isConst)) .guestToHost = {"set_ops"} := rfl
          rw [procs, hdecls, Finset.sort_singleton]
          rfl
      | hostToGuest =>
          have hdecls : functionDecls (opsSummary isConst) (unitHeaders (opsUnit isConst)
            (opsReadType isConst) (opsSummary isConst)) .hostToGuest = ∅ := rfl
          rw [procs, hdecls, Finset.sort_empty]
          rfl
  | callback => cases isConst <;> cases dir <;> rfl

theorem trees_ops (isConst : Bool) :
    argumentTrees QualType.getAsString (opsUnit isConst) 10 (procSnippets QualType.getAsString
      (opsReadType isConst) (opsUnit isConst) (opsSummary isConst)) [] = some opsTrees := by
  simp only [procSnippets, List.flatMap_cons, List.flatMap_nil, procs_ops]
  cases isConst <;> rfl

theorem saved_ops (isConst : Bool) :
    Saved QualType.getAsString (opsUnit isConst) opsConfig (opsInfos isConst)
      (opsSummary isConst) := by
  refine ⟨rfl, fun dir => ?_⟩
  cases dir <;> rfl

/-- The types that occur. -/
def opsTypes (isConst : Bool) : List QualType :=
  [opsPointer, .tag {} .struct "ops", notifyPointer isConst, .builtin {} .int]

theorem reached_ops {isConst : Bool}
    (h : Reached QualType.getAsString (opsUnit isConst) opsConfig t) :
    t ∈ opsTypes isConst := by
  obtain ⟨call, hcall, item, hitem, hleads⟩ := h
  have hseed : item.1 = opsPointer := by
    simp [collectCalls, matchAST, opsUnit, opsConfig, matchCallback, functionCalls] at hcall
    subst hcall
    simp [CollectCall.stack, QualType.pointerTo, QualType.callee?, signatureItems,
      QualType.isFunctionType, QualType.void, QualType.isVoidType] at hitem
    rw [hitem]
  rw [hseed] at hleads
  induction hleads with
  | refl => exact List.mem_cons_self
  | tail _ hnext ih =>
      simp only [opsTypes, List.mem_cons, List.not_mem_nil, or_false] at ih
      rcases ih with rfl | rfl | rfl | rfl
      · simp_all [successors, opsTypes, opsPointer, QualType.pointerTo, QualType.isFunctionType]
      · simp_all [successors, opsTypes, opsUnit, fieldsOf]
      · simp_all [successors, opsTypes, notifyPointer, notifyType, QualType.isFunctionType,
          signatureTypes, QualType.void, QualType.isVoidType]
      · simp_all [successors, fieldsOf]

theorem occurs_ops {isConst : Bool}
    (h : Occurs QualType.getAsString (opsUnit isConst) opsConfig t) :
    t ∈ opsTypes isConst ∨ t = .pointerTo notifyType := by
  rcases h with h | ⟨quals, c, h, rfl⟩
  · exact .inl (reached_ops h)
  · have hmem := reached_ops h
    simp only [opsTypes, opsPointer, notifyPointer, QualType.pointerTo, List.mem_cons,
      QualType.pointer.injEq, reduceCtorEq, List.not_mem_nil, or_false, false_or] at hmem
    rcases hmem with ⟨-, rfl⟩ | ⟨-, rfl⟩
    · exact .inl List.mem_cons_self
    · exact .inr rfl

theorem spellsApart_ops (isConst : Bool) :
    SpellsApart QualType.getAsString (opsUnit isConst) opsConfig := by
  intro t t' ht ht' heq _
  have hmem : ∀ {s}, Occurs QualType.getAsString (opsUnit isConst) opsConfig s →
      s ∈ .pointerTo notifyType :: opsTypes true := by
    intro s hs
    rcases occurs_ops hs with hs | rfl
    · cases isConst with
      | true => exact List.mem_cons_of_mem _ hs
      | false =>
          simp only [opsTypes, List.mem_cons, List.not_mem_nil, or_false] at hs ⊢
          rcases hs with hs | hs | hs | hs
          · exact .inr (.inl hs)
          · exact .inr (.inr (.inl hs))
          · exact .inl hs
          · exact .inr (.inr (.inr (.inr hs)))
    · exact List.mem_cons_self
  have hnodup : ((QualType.pointerTo notifyType :: opsTypes true).map
      (getTypeString QualType.getAsString)).Nodup := by
    decide
  exact List.inj_on_of_nodup_map hnodup (hmem ht) (hmem ht') heq

theorem readsBack_ops (isConst : Bool) :
    ReadsBack QualType.getAsString (opsReadType isConst) (opsUnit isConst) opsConfig := by
  intro t ht hp
  have hmem := reached_ops ht
  simp only [opsTypes, List.mem_cons, List.not_mem_nil, or_false] at hmem
  rcases hmem with rfl | rfl | rfl | rfl
  · exact nomatch hp
  · exact nomatch hp
  · exact if_pos rfl
  · exact nomatch hp

/-- With a plain callback, `set_ops` has its alias. -/
theorem aliasesResolve_ops : AliasesResolve QualType.getAsString (opsReadType false)
    (opsUnit false) (opsInfos false) (opsSummary false) opsTrees := by
  refine (aliasesResolve_iff (spellsApart_ops false) (readsBack_ops false) (stat_ops false)
    (saved_ops false) (trees_ops false)).mpr ?_
  intro tree _ c _ quals hquals hreached
  have hmem := reached_ops hreached
  simp only [opsTypes, opsPointer, notifyPointer, QualType.pointerTo, List.mem_cons,
    QualType.pointer.injEq, reduceCtorEq, List.not_mem_nil, or_false, false_or] at hmem
  rcases hmem with ⟨hplain, -⟩ | ⟨hplain, -⟩
  · exact absurd hplain hquals
  · exact absurd hplain hquals

/-- With a `const` callback, stat registers `void (*const)(int)`, and the alias is looked up
under `void (*)(int)`. -/
theorem not_aliasesResolve : ¬ ∀ (getAsString : QualType → Str)
    (readType : String → Option QualType) (tu : TranslationUnit) (config : ThunkConfig)
    (fuel fuel' : Nat) (infos : List CallbackInfo) (summary : ManifestSummary)
    (trees : List CallbackTree),
    SpellsApart getAsString tu config → ReadsBack getAsString readType tu config →
      stat getAsString tu config fuel = some infos → Saved getAsString tu config infos summary →
        argumentTrees getAsString tu fuel' (procSnippets getAsString readType tu summary) [] =
          some trees → AliasesResolve getAsString readType tu infos summary trees := by
  intro h
  have hresolve := h _ _ _ _ _ _ _ _ _ (spellsApart_ops true) (readsBack_ops true) (stat_ops true)
    (saved_ops true) (trees_ops true)
  have hmem := (hresolve _ List.mem_cons_self notifyType (by
    simp [CallbackTree.callees, CallbackTree.calleesOf])).1
  revert hmem
  decide

end Ops

end Lorelei.TLC
