import Lorelei.TLC.Dump

/-!
# What `TLC dump` finds

The order in which the declarations are met does not matter, except that a fallback declaration
is made of the first one outside of all headers.
-/

namespace Lorelei.TLC.Dump

open Support

variable {g g₀ : GlobalContext} {decls : List FunctionDecl} {decl : FunctionDecl} {name path : Str}

/-! ## The declarations that count -/

namespace GlobalContext

/-- The path that a declaration is counted for, if it is. -/
def place (g : GlobalContext) (decl : FunctionDecl) : Option Str :=
  if decl.isCLinkage = true ∧ (g.requestedFunctions.find decl.name).isSome = true then
    decl.file.map (normalizePath g.initialCwd)
  else none

/-- The path that it is counted for as a declaration of this function. -/
def sighting (g : GlobalContext) (name : Str) (decl : FunctionDecl) : Option Str :=
  if decl.name = name then g.place decl else none

/-- The paths that a function is found in. -/
def places (g : GlobalContext) (decls : List FunctionDecl) (name : Str) : Finset Str :=
  (decls.filterMap (g.sighting name)).toFinset

/-- The declaration is one of the function, outside of all headers. -/
def outside (g : GlobalContext) (name : Str) (decl : FunctionDecl) : Bool :=
  (g.sighting name decl).any fun path => !isLikelyHeaderPath path

theorem mem_places :
    path ∈ g.places decls name ↔ ∃ decl ∈ decls, g.sighting name decl = some path := by
  rw [places, List.mem_toFinset, List.mem_filterMap]

theorem places_concat_of_none (h : g.sighting name decl = none) :
    g.places (decls ++ [decl]) name = g.places decls name := by
  rw [places, List.filterMap_append, List.filterMap_cons_none h, List.filterMap_nil,
    List.append_nil, places]

theorem places_concat_of_some (h : g.sighting name decl = some path) :
    g.places (decls ++ [decl]) name = insert path (g.places decls name) := by
  rw [places, List.filterMap_append, List.filterMap_cons_some h, List.filterMap_nil,
    List.toFinset_append, ← places, List.toFinset_cons, List.toFinset_nil, Finset.union_insert,
    Finset.union_empty]

/-- What one more path adds to those of a function. -/
def addPath (path : Str) (resolved : Option ResolvedFunction) : ResolvedFunction :=
  let resolved := resolved.getD ⟨∅, ∅⟩
  if isLikelyHeaderPath path then
    { resolved with headerPaths := insert path resolved.headerPaths }
  else { resolved with nonHeaderPaths := insert path resolved.nonHeaderPaths }

theorem matchCallback_eq (g : GlobalContext) (decl : FunctionDecl) :
    g.matchCallback decl =
      match g.place decl with
      | none => g
      | some path =>
          { g with
            resolvedFunctions := g.resolvedFunctions.alter decl.name (addPath path)
            capturedFunctions :=
              if isLikelyHeaderPath path then g.capturedFunctions
              else g.capturedFunctions.alter decl.name fun captured =>
                captured.getD (captureFunction g.initialCwd decl) } := by
  rw [matchCallback, place]
  cases hlinkage : decl.isCLinkage with
  | false => simp
  | true =>
      cases hrequested : g.requestedFunctions.find decl.name with
      | none => simp
      | some sections =>
          cases hfile : decl.file with
          | none => simp
          | some fileName =>
              cases hheader : isLikelyHeaderPath (normalizePath g.initialCwd fileName) <;>
                simp [hheader, funext fun r => addPath.eq_1 (normalizePath g.initialCwd fileName) r]

/-- The paths of a function, by what they are. -/
def resolvedPaths (places : Finset Str) : ResolvedFunction where
  headerPaths := places.filter (isLikelyHeaderPath ·)
  nonHeaderPaths := places.filter (!isLikelyHeaderPath ·)

theorem addPath_resolvedPaths (path : Str) (places : Finset Str) :
    addPath path (if places = ∅ then none else some (resolvedPaths places)) =
      resolvedPaths (insert path places) := by
  have hgetD : (if places = ∅ then none else some (resolvedPaths places)).getD ⟨∅, ∅⟩ =
      resolvedPaths places := by
    by_cases hempty : places = ∅
    · rw [if_pos hempty, hempty]
      rfl
    · rw [if_neg hempty]
      rfl
  rw [addPath, hgetD, resolvedPaths, resolvedPaths, Finset.filter_insert, Finset.filter_insert]
  cases isLikelyHeaderPath path <;> rfl

end GlobalContext

open GlobalContext

/-! ## The maps -/

/-- What is known after these declarations. -/
structure Scanned (g₀ : GlobalContext) (decls : List FunctionDecl) (g : GlobalContext) : Prop where
  initialCwd : g.initialCwd = g₀.initialCwd
  configPath : g.configPath = g₀.configPath
  requested : g.requestedFunctions = g₀.requestedFunctions
  resolved : ∀ name, g.resolvedFunctions.find name =
    if g₀.places decls name = ∅ then none else some (resolvedPaths (g₀.places decls name))
  captured : ∀ name, g.capturedFunctions.find name =
    (decls.find? (g₀.outside name)).map (captureFunction g₀.initialCwd)

theorem find?_concat {α : Type*} (p : α → Bool) (l : List α) (a : α) :
    (l ++ [a]).find? p = (l.find? p).or (if p a then some a else none) := by
  rw [List.find?_append, List.find?_singleton]

theorem Scanned.matchCallback (h : Scanned g₀ decls g) (decl : FunctionDecl) :
    Scanned g₀ (decls ++ [decl]) (g.matchCallback decl) := by
  have hplace : g.place decl = g₀.place decl := by
    rw [place, place, h.requested, h.initialCwd]
  rw [matchCallback_eq, hplace]
  cases hpath : g₀.place decl with
  | none =>
      have hsighting (name : Str) : g₀.sighting name decl = none := by
        rw [sighting, hpath, ite_self]
      refine ⟨h.initialCwd, h.configPath, h.requested, fun name => ?_, fun name => ?_⟩
      · rw [places_concat_of_none (hsighting name)]
        exact h.resolved name
      · rw [find?_concat, outside, hsighting name]
        simpa using h.captured name
  | some path =>
      have hsighting (name : Str) : g₀.sighting name decl =
          if decl.name = name then some path else none := by
        rw [sighting, hpath]
      refine ⟨h.initialCwd, h.configPath, h.requested, fun name => ?_, fun name => ?_⟩
      · show (g.resolvedFunctions.alter decl.name (addPath path)).find name = _
        rw [OrderedMap.find_alter]
        by_cases hname : decl.name = name
        · have hsome : g₀.sighting name decl = some path := by rw [hsighting, if_pos hname]
          rw [if_pos hname, hname, h.resolved, addPath_resolvedPaths, places_concat_of_some hsome,
            if_neg (Finset.insert_ne_empty _ _)]
        · have hnone : g₀.sighting name decl = none := by rw [hsighting, if_neg hname]
          rw [if_neg hname, places_concat_of_none hnone]
          exact h.resolved name
      · rw [find?_concat, outside, hsighting name]
        dsimp only
        cases hheader : isLikelyHeaderPath path with
        | true =>
            rw [if_pos rfl, h.captured]
            by_cases hname : decl.name = name <;> simp [hname, hheader]
        | false =>
            rw [if_neg Bool.false_ne_true, OrderedMap.find_alter, h.captured, h.captured,
              h.initialCwd]
            by_cases hname : decl.name = name
            · rw [if_pos hname, if_pos hname, hname]
              cases decls.find? (g₀.outside name) <;> simp [hheader]
            · simp [hname]

theorem scanned_run (g₀ : GlobalContext) (hresolved : g₀.resolvedFunctions = .empty)
    (hcaptured : g₀.capturedFunctions = .empty) (decls : List FunctionDecl) :
    Scanned g₀ decls (g₀.run decls) := by
  induction decls using List.reverseRecOn with
  | nil =>
      refine ⟨rfl, rfl, rfl, fun name => ?_, fun name => ?_⟩
      · show g₀.resolvedFunctions.find name = none
        rw [hresolved, OrderedMap.find_empty]
      · show g₀.capturedFunctions.find name = none
        rw [hcaptured, OrderedMap.find_empty]
  | append_singleton decls decl ih =>
      rw [GlobalContext.run, List.foldl_concat]
      exact ih.matchCallback decl

/-! ## Types -/

/-- The declarations that a type depends on are in included headers. -/
def Provided (initialCwd : Str) (known : Finset Str) (t : TypeSource) : Prop :=
  ∀ file ∈ collectTypeDependencies t.type, normalizePath initialCwd file ∈ known

/-- A type is emitted as it is written, if it is provided, or a pointer as `void *`. -/
def Emits (initialCwd : Str) (known : Finset Str) (t : TypeSource) (text : Str) : Prop :=
  text = t.text ∧ Provided initialCwd known t ∨
    text = "void *".toList ∧ t.type.isPointerType = true

/-- A type can be emitted if it is provided or a pointer. -/
def Emittable (initialCwd : Str) (known : Finset Str) (t : TypeSource) : Prop :=
  t.type.isPointerType = true ∨ Provided initialCwd known t

variable {initialCwd : Str} {known : Finset Str}

theorem provided_iff (hknown : ∀ path ∈ known, isLikelyHeaderPath path = true) (t : TypeSource) :
    Provided initialCwd known t ↔ (captureType initialCwd t).headerPaths ⊆ known ∧
      (captureType initialCwd t).nonHeaderPaths = ∅ := by
  simp only [captureType, Finset.subset_iff, List.mem_toFinset, List.mem_filter, List.mem_map,
    List.toFinset_eq_empty_iff, List.filter_eq_nil_iff, Bool.not_eq_true', Bool.not_eq_false]
  constructor
  · intro h
    refine ⟨?_, ?_⟩
    · rintro _ ⟨⟨file, hfile, rfl⟩, -⟩
      exact h file hfile
    · rintro _ ⟨file, hfile, rfl⟩
      exact hknown _ (h file hfile)
  · rintro ⟨hheaders, hnone⟩ file hfile
    exact hheaders ⟨⟨file, hfile, rfl⟩, hnone _ ⟨file, hfile, rfl⟩⟩

theorem decideFallbackType_spec (hknown : ∀ path ∈ known, isLikelyHeaderPath path = true)
    (t : TypeSource) (isReturnType : Bool) :
    ((decideFallbackType (captureType initialCwd t) known isReturnType).allowed = true ↔
        Emittable initialCwd known t) ∧
      ((decideFallbackType (captureType initialCwd t) known isReturnType).allowed = true →
        Emits initialCwd known t
          (decideFallbackType (captureType initialCwd t) known isReturnType).emittedTypeText) := by
  have hprovided : Provided initialCwd known t ↔ _ := provided_iff hknown t
  have hpointer : (captureType initialCwd t).pointerLike = t.type.isPointerType := rfl
  rw [decideFallbackType]
  split
  next hkept =>
    obtain ⟨hheaders, hnone, -⟩ := hkept
    have h : Provided initialCwd known t :=
      hprovided.mpr ⟨not_not.mp hheaders, not_not.mp hnone⟩
    exact ⟨⟨fun _ => .inr h, fun _ => rfl⟩, fun _ => .inl ⟨rfl, h⟩⟩
  next hnot =>
    dsimp only
    split
    next hlike =>
      exact ⟨⟨fun _ => .inl hlike, fun _ => rfl⟩, fun _ => .inr ⟨rfl, hlike⟩⟩
    next hlike =>
      refine ⟨⟨nofun, ?_⟩, nofun⟩
      rintro (h | h)
      · exact absurd h hlike
      · obtain ⟨hheaders, hnone⟩ := hprovided.mp h
        exact absurd ⟨not_not.mpr hheaders, not_not.mpr hnone, fun hlike' => hlike hlike'.1⟩ hnot

/-! ## Prototypes -/

/-- What is put behind what has been written, with commas in between. -/
def separated (first : Bool) : List Str → Str
  | [] => []
  | text :: texts => (if first then [] else ", ".toList) ++ text ++ separated false texts

/-- A function declaration. -/
def prototype (name returnText : Str) (params : List Str) (variadic : Bool) : Str :=
  let params := if variadic then params ++ ["...".toList] else params
  returnText ++ " ".toList ++ name ++ "(".toList ++
    (if params = [] then "void".toList else separated true params) ++ ");".toList

/-- The text of a parameter. -/
def paramText (known : Finset Str) (param : CapturedParam) : Str :=
  formatTypeTextWithName (decideFallbackType param.type known false).emittedTypeText param.name

theorem separated_append (first : Bool) (texts : List Str) (text : Str) :
    separated first (texts ++ [text]) = separated first texts ++
      (if first && texts.isEmpty then [] else ", ".toList) ++ text := by
  induction texts generalizing first with
  | nil => cases first <;> simp [separated]
  | cons head texts ih =>
      rw [List.cons_append, separated, ih, separated, Bool.false_and]
      simp only [Bool.false_eq_true, if_false, List.isEmpty_cons, Bool.and_false,
        List.append_assoc]

/-- The loop over the parameters ends with an error, or it writes all of them. -/
theorem foldlM_emitParam (known : Finset Str) (params : List CapturedParam)
    (written : ParamsWritten) :
    (∃ out, params.foldlM (emitParam known) written = .error out ∧ out.allowed = false ∧
        out.errors ≠ [] ∧
        ∃ param ∈ params, (decideFallbackType param.type known false).allowed = false) ∨
      (∀ param ∈ params, (decideFallbackType param.type known false).allowed = true) ∧
        ∃ notes, params.foldlM (emitParam known) written =
          .ok ⟨written.decl ++ separated written.first (params.map (paramText known)),
            written.first && params.isEmpty, notes⟩ := by
  induction params generalizing written with
  | nil =>
      refine .inr ⟨List.forall_mem_nil _, written.notes, ?_⟩
      rw [List.map_nil, separated, List.append_nil, List.isEmpty_nil, Bool.and_true]
      rfl
  | cons param params ih =>
      rw [List.foldlM_cons, emitParam]
      cases hallowed : (decideFallbackType param.type known false).allowed with
      | false => exact .inl ⟨_, rfl, rfl, List.cons_ne_nil _ _, param, List.mem_cons_self, hallowed⟩
      | true =>
          rw [if_neg (by simp)]
          obtain ⟨out, hout, hnot, herrors, param', hmem, hparam⟩ | ⟨hall, notes', hok⟩ := ih
            { decl := (if written.first then written.decl else written.decl ++ ", ".toList) ++
                formatTypeTextWithName
                  (decideFallbackType param.type known false).emittedTypeText param.name
              first := false
              notes := written.notes ++
                typeNote ("parameter `".toList ++ param.name ++ "` rewritten: ".toList) param.type
                  (decideFallbackType param.type known false) }
          · exact .inl ⟨out, hout, hnot, herrors, param', List.mem_cons_of_mem _ hmem, hparam⟩
          · refine .inr ⟨List.forall_mem_cons.mpr ⟨hallowed, hall⟩, notes', hok.trans ?_⟩
            rw [List.map_cons, separated, List.isEmpty_cons, Bool.and_false, Bool.false_and,
              paramText]
            cases written.first <;> simp

/-- A declaration is built if each of its types is allowed. -/
theorem buildFallbackDeclDecision_spec (name : Str) (fn : CapturedFunction) (known : Finset Str) :
    ((buildFallbackDeclDecision name fn known).errors = [] ↔
        (decideFallbackType fn.returnType known true).allowed = true ∧
          ∀ param ∈ fn.params, (decideFallbackType param.type known false).allowed = true) ∧
      (if (buildFallbackDeclDecision name fn known).errors = [] then
        (buildFallbackDeclDecision name fn known).allowed = true ∧
          (buildFallbackDeclDecision name fn known).declText =
            prototype name (decideFallbackType fn.returnType known true).emittedTypeText
              (fn.params.map (paramText known)) fn.variadic
      else (buildFallbackDeclDecision name fn known).allowed = false) := by
  rw [buildFallbackDeclDecision]
  cases hreturn : (decideFallbackType fn.returnType known true).allowed with
  | false => simp
  | true =>
      dsimp only
      rw [if_neg (by simp)]
      obtain ⟨out, hout, hnot, herrors, param, hmem, hparam⟩ | ⟨hall, notes', hok⟩ :=
        foldlM_emitParam known fn.params
          ⟨(decideFallbackType fn.returnType known true).emittedTypeText ++ " ".toList ++ name ++
            "(".toList, true, typeNote "return type rewritten: ".toList fn.returnType
              (decideFallbackType fn.returnType known true)⟩
      · rw [hout]
        dsimp only
        rw [if_neg herrors]
        refine ⟨⟨fun h => absurd h herrors, fun h => ?_⟩, hnot⟩
        rw [h.2 param hmem] at hparam
        cases hparam
      · rw [hok]
        dsimp only
        rw [if_pos rfl]
        refine ⟨⟨fun _ => ⟨rfl, hall⟩, fun _ => rfl⟩, rfl, ?_⟩
        rw [prototype]
        cases fn.variadic with
        | false =>
            cases hparams : fn.params <;> simp [separated]
        | true =>
            simp only [if_true, separated_append]
            cases hparams : fn.params <;> simp [separated]

/-! ## The classes of the functions -/

/-- A function is found, and in no header. -/
def NonHeaderOnly (places : Finset Str) : Prop :=
  places ≠ ∅ ∧ ∀ path ∈ places, isLikelyHeaderPath path = false

instance : DecidablePred NonHeaderOnly := fun places =>
  inferInstanceAs (Decidable (places ≠ ∅ ∧ ∀ path ∈ places, isLikelyHeaderPath path = false))

/-- What the comment on an included header says about a function. -/
def listing (places : Finset Str) (requested : Str × Finset Str) : Str :=
  if ∀ path ∈ places, isLikelyHeaderPath path = true then describeFunction requested
  else describeFunction requested ++ " (also seen in non-header files)".toList

/-- What is said about a function that is in no header. -/
def outsideLine (places : Finset Str) (requested : Str × Finset Str) : Str :=
  describeFunction requested ++ " found only in non-header files: ".toList ++ joinSet places

theorem headerPaths_eq_empty_iff {places : Finset Str} :
    (resolvedPaths places).headerPaths = ∅ ↔
      ∀ path ∈ places, isLikelyHeaderPath path = false := by
  simp [resolvedPaths, Finset.filter_eq_empty_iff]

theorem nonHeaderPaths_eq_empty_iff {places : Finset Str} :
    (resolvedPaths places).nonHeaderPaths = ∅ ↔
      ∀ path ∈ places, isLikelyHeaderPath path = true := by
  simp [resolvedPaths, Finset.filter_eq_empty_iff]

theorem nonHeaderPaths_eq_self {places : Finset Str}
    (h : ∀ path ∈ places, isLikelyHeaderPath path = false) :
    (resolvedPaths places).nonHeaderPaths = places :=
  Finset.filter_true_of_mem fun path hmem => by rw [h path hmem]; rfl

/-- The lines that a function adds to the headers that declare it. -/
def headerPairs (places : Finset Str) (requested : Str × Finset Str) : List (Str × Str) :=
  (SortedMap.elements (resolvedPaths places).headerPaths).map fun path =>
    (path, listing places requested)

variable {found : Str → Finset Str}

theorem classify_eq (hfound : ∀ name, g.resolved name = resolvedPaths (found name)) (out : Output)
    (r : Str × Finset Str) :
    g.classify out r =
      { missingFunctions := out.missingFunctions ++
          if found r.1 = ∅ then [describeFunction r ++ " missing".toList] else []
        nonHeaderOnlyFunctions := out.nonHeaderOnlyFunctions ++
          if NonHeaderOnly (found r.1) then [outsideLine (found r.1) r] else []
        headerToFunctions := OrderedMap.group (headerPairs (found r.1) r) out.headerToFunctions
        fallbackDecls := out.fallbackDecls } := by
  rw [classify, hfound, headerPairs]
  dsimp only
  by_cases hheaders : (resolvedPaths (found r.1)).headerPaths = ∅
  · have hall := headerPaths_eq_empty_iff.mp hheaders
    rw [if_pos hheaders, nonHeaderPaths_eq_self hall, hheaders, SortedMap.elements,
      Finset.sort_empty, List.map_nil, OrderedMap.group, List.foldl_nil]
    by_cases hempty : found r.1 = ∅
    · have hnot : ¬ NonHeaderOnly (found r.1) := fun h => h.1 hempty
      rw [if_neg (not_not.mpr hempty), if_pos hempty, if_neg hnot, List.append_nil]
    · have honly : NonHeaderOnly (found r.1) := ⟨hempty, hall⟩
      rw [if_pos hempty, if_neg hempty, if_pos honly, List.append_nil, outsideLine]
  · have hsome : ¬ ∀ path ∈ found r.1, isLikelyHeaderPath path = false :=
      fun h => hheaders (headerPaths_eq_empty_iff.mpr h)
    have hne : found r.1 ≠ ∅ := fun h => hsome (by simp [h])
    have hnot : ¬ NonHeaderOnly (found r.1) := fun h => hsome h.2
    have hlisting : listing (found r.1) r =
        if (resolvedPaths (found r.1)).nonHeaderPaths ≠ ∅ then
          describeFunction r ++ " (also seen in non-header files)".toList
        else describeFunction r := by
      rw [listing, ← ite_not]
      exact if_congr (not_congr nonHeaderPaths_eq_empty_iff).symm rfl rfl
    rw [if_neg hheaders, if_neg hne, if_neg hnot, List.append_nil, List.append_nil, ← hlisting,
      OrderedMap.group, List.foldl_map]

theorem foldl_classify (hfound : ∀ name, g.resolved name = resolvedPaths (found name))
    (requested : List (Str × Finset Str)) (out : Output) :
    requested.foldl g.classify out =
      { missingFunctions := out.missingFunctions ++
          (requested.filter fun r => found r.1 = ∅).map fun r =>
            describeFunction r ++ " missing".toList
        nonHeaderOnlyFunctions := out.nonHeaderOnlyFunctions ++
          (requested.filter fun r => NonHeaderOnly (found r.1)).map fun r =>
            outsideLine (found r.1) r
        headerToFunctions := OrderedMap.group
          (requested.flatMap fun r => headerPairs (found r.1) r) out.headerToFunctions
        fallbackDecls := out.fallbackDecls } := by
  induction requested generalizing out with
  | nil => simp [OrderedMap.group]
  | cons r requested ih =>
      rw [List.foldl_cons, ih, classify_eq hfound]
      dsimp only
      rw [List.append_assoc, List.append_assoc, List.filter_cons, List.filter_cons,
        List.flatMap_cons, OrderedMap.group, OrderedMap.group, ← List.foldl_append,
        ← OrderedMap.group]
      congr 2
      · by_cases h : found r.1 = ∅ <;> simp [h]
      · by_cases h : NonHeaderOnly (found r.1) <;> simp [h]

/-- The functions under a header are the ones that have been found in it. -/
theorem valuesOf_headerPairs {path : Str} (hpath : isLikelyHeaderPath path = true)
    (requested : List (Str × Finset Str)) :
    OrderedMap.valuesOf path (requested.flatMap fun r => headerPairs (found r.1) r) =
      (requested.filter fun r => path ∈ found r.1).map fun r => listing (found r.1) r := by
  induction requested with
  | nil => rfl
  | cons r requested ih =>
      have hmem : path ∈ SortedMap.elements (resolvedPaths (found r.1)).headerPaths ↔
          path ∈ found r.1 := by
        simp [resolvedPaths, hpath]
      rw [List.flatMap_cons, OrderedMap.valuesOf, List.filterMap_append, ← OrderedMap.valuesOf,
        ← OrderedMap.valuesOf, ih, headerPairs,
        OrderedMap.valuesOf_map_of_nodup (Finset.sort_nodup _ _)]
      by_cases h : path ∈ found r.1 <;> simp [hmem, h]

theorem mem_keys_headerPairs {path : Str} (requested : List (Str × Finset Str)) :
    path ∈ (requested.flatMap fun r => headerPairs (found r.1) r).map Prod.fst ↔
      isLikelyHeaderPath path = true ∧ ∃ r ∈ requested, path ∈ found r.1 := by
  simp only [List.mem_map, List.mem_flatMap, headerPairs, resolvedPaths, Finset.mem_sort,
    Finset.mem_filter]
  constructor
  · rintro ⟨_, ⟨r, hr, path, ⟨hpath, hheader⟩, rfl⟩, rfl⟩
    exact ⟨hheader, r, hr, hpath⟩
  · rintro ⟨hheader, r, hr, hpath⟩
    exact ⟨_, ⟨r, hr, path, ⟨hpath, hheader⟩, rfl⟩, rfl⟩

/-! ## Fallback declarations -/

/-- A prototype of the declared function, with types that are emitted. -/
def IsPrototype (initialCwd : Str) (known : Finset Str) (decl : FunctionDecl) (text : Str) :
    Prop :=
  ∃ returnText paramTexts, Emits initialCwd known decl.returnType returnText ∧
    List.Forall₂ (fun param paramText => ∃ typeText, Emits initialCwd known param.1.2 typeText ∧
        paramText = formatTypeTextWithName typeText (captureParam initialCwd param).name)
      decl.params.zipIdx paramTexts ∧
    text = prototype decl.name returnText paramTexts decl.variadic

/-- What is written for a function that `decl` is the first declaration of. -/
structure FallbackFor (g₀ : GlobalContext) (known : Finset Str) (decl : FunctionDecl)
    (out : FallbackDeclOutput) : Prop where
  functionName : out.functionName = decl.name
  sourcePath : g₀.place decl = some out.sourcePath
  sourceLocation : out.sourceLocation = decl.location
  emitted : out.errors = [] ↔ Emittable g₀.initialCwd known decl.returnType ∧
    ∀ param ∈ decl.params, Emittable g₀.initialCwd known param.2
  declText : if out.errors = [] then IsPrototype g₀.initialCwd known decl out.declText
    else out.declText = []

section Captured

variable (hknown : ∀ path ∈ known, isLikelyHeaderPath path = true) (decl : FunctionDecl)
include hknown

theorem forall_allowed_iff :
    (∀ param ∈ (captureFunction initialCwd decl).params,
        (decideFallbackType param.type known false).allowed = true) ↔
      ∀ param ∈ decl.params, Emittable initialCwd known param.2 := by
  have hspec (param : (Str × TypeSource) × Nat) : _ ↔ Emittable initialCwd known param.1.2 :=
    (decideFallbackType_spec hknown param.1.2 false).1
  rw [captureFunction, List.forall_mem_map, ← List.zipIdx_map_fst 0 decl.params,
    List.forall_mem_map, List.zipIdx_map_fst]
  exact forall₂_congr fun param _ => hspec param

theorem errors_eq_nil_iff :
    (buildFallbackDeclDecision decl.name (captureFunction initialCwd decl) known).errors = [] ↔
      Emittable initialCwd known decl.returnType ∧
        ∀ param ∈ decl.params, Emittable initialCwd known param.2 := by
  rw [(buildFallbackDeclDecision_spec _ _ _).1, forall_allowed_iff hknown]
  exact and_congr_left fun _ => (decideFallbackType_spec hknown decl.returnType true).1

theorem isPrototype_of_errors_eq_nil
    (h : (buildFallbackDeclDecision decl.name (captureFunction initialCwd decl)
      known).errors = []) :
    (buildFallbackDeclDecision decl.name (captureFunction initialCwd decl) known).allowed = true ∧
      IsPrototype initialCwd known decl
        (buildFallbackDeclDecision decl.name (captureFunction initialCwd decl) known).declText := by
  obtain ⟨hiff, hspec⟩ :=
    buildFallbackDeclDecision_spec decl.name (captureFunction initialCwd decl) known
  obtain ⟨hreturn, hparams⟩ := hiff.mp h
  rw [if_pos h] at hspec
  refine ⟨hspec.1, _, _, (decideFallbackType_spec hknown decl.returnType true).2 hreturn, ?_,
    hspec.2⟩
  rw [captureFunction, List.forall_mem_map] at hparams
  rw [captureFunction, List.map_map, List.forall₂_map_right_iff, List.forall₂_same]
  intro param hmem
  exact ⟨_, (decideFallbackType_spec hknown param.1.2 false).2 (hparams param hmem), rfl⟩

end Captured

theorem sourcePath_of_place (h : g₀.place decl = some path) :
    (captureFunction g₀.initialCwd decl).sourcePath = path := by
  rw [place] at h
  split at h
  · rw [captureFunction, h, Option.getD_some]
  · cases h

/-- The functions outside of all headers get a fallback each. -/
theorem fallback_spec (h : Scanned g₀ decls g)
    (hknown : ∀ path ∈ known, isLikelyHeaderPath path = true) (r : Str × Finset Str) :
    if NonHeaderOnly (g₀.places decls r.1) then
      ∃ decl out, decls.find? (g₀.outside r.1) = some decl ∧ decl.name = r.1 ∧
        g.fallback known r = some out ∧ FallbackFor g₀ known decl out
    else g.fallback known r = none := by
  split
  case isTrue honly =>
    obtain ⟨hne, hall⟩ := honly
    obtain ⟨path, hpath⟩ := Finset.nonempty_iff_ne_empty.mpr hne
    obtain ⟨decl', hmem, hsighting⟩ := mem_places.mp hpath
    have houtside : g₀.outside r.1 decl' = true := by
      rw [outside, hsighting, Option.any_some, hall path hpath]
      rfl
    obtain ⟨decl, hfind⟩ := Option.isSome_iff_exists.mp
      (List.find?_isSome.mpr ⟨decl', hmem, houtside⟩)
    have hsome := List.find?_some hfind
    rw [outside, Option.any_eq_true] at hsome
    obtain ⟨place, hplace, -⟩ := hsome
    have hname : decl.name = r.1 := by
      by_contra hname
      rw [sighting, if_neg hname] at hplace
      cases hplace
    rw [sighting, if_pos hname] at hplace
    rw [fallback, h.resolved, if_neg hne, h.captured, hfind]
    dsimp only
    rw [if_neg (not_not.mpr (headerPaths_eq_empty_iff.mpr hall)), Option.map_some, Option.map_some,
      ← hname]
    refine ⟨decl, _, rfl, rfl, rfl, rfl, ?_, rfl, errors_eq_nil_iff hknown decl, ?_⟩
    · rw [hplace, ← sourcePath_of_place hplace]
    · dsimp only
      split
      case isTrue herrors =>
        obtain ⟨hallowed, hprototype⟩ := isPrototype_of_errors_eq_nil hknown decl herrors
        rwa [if_pos hallowed]
      case isFalse herrors =>
        have hspec := (buildFallbackDeclDecision_spec decl.name
          (captureFunction g₀.initialCwd decl) known).2
        rw [if_neg herrors] at hspec
        rw [hspec, if_neg Bool.false_ne_true]
  case isFalse honly =>
    rw [fallback, h.resolved]
    by_cases hempty : g₀.places decls r.1 = ∅
    · rw [if_pos hempty]
    · rw [if_neg hempty]
      exact if_pos fun hheaders => honly ⟨hempty, headerPaths_eq_empty_iff.mp hheaders⟩

/-! ## The output -/

/-- What a dump says about these declarations. -/
structure Dumped (g₀ : GlobalContext) (decls : List FunctionDecl) (out : Output) : Prop where
  missing : out.missingFunctions.Perm
    ((g₀.requestedFunctions.entries.filter fun r => g₀.places decls r.1 = ∅).map fun r =>
      describeFunction r ++ " missing".toList)
  nonHeaderOnly : out.nonHeaderOnlyFunctions.Perm
    ((g₀.requestedFunctions.entries.filter fun r => NonHeaderOnly (g₀.places decls r.1)).map
      fun r => outsideLine (g₀.places decls r.1) r)
  included : ∀ path, path ∈ out.headerToFunctions.entries.map Prod.fst ↔
    isLikelyHeaderPath path = true ∧ ∃ name, path ∈ g₀.places decls name
  listed : ∀ path, isLikelyHeaderPath path = true →
    (out.headerToFunctions.find path).getD [] =
      (g₀.requestedFunctions.entries.filter fun r => path ∈ g₀.places decls r.1).map fun r =>
        listing (g₀.places decls r.1) r
  fallbackNames : out.fallbackDecls.map FallbackDeclOutput.functionName =
    (g₀.requestedFunctions.entries.filter fun r => NonHeaderOnly (g₀.places decls r.1)).map
      Prod.fst
  fallbacks : ∀ fallback ∈ out.fallbackDecls, ∃ decl,
    decls.find? (g₀.outside fallback.functionName) = some decl ∧
      FallbackFor g₀ (out.headerToFunctions.entries.map Prod.fst).toFinset decl fallback

theorem Scanned.resolved_eq (h : Scanned g₀ decls g) (name : Str) :
    g.resolved name = resolvedPaths (g₀.places decls name) := by
  rw [GlobalContext.resolved, h.resolved]
  split
  next hempty =>
    rw [hempty]
    rfl
  next => rfl

/-- What has a place has been requested. -/
theorem exists_requested_of_mem_places (h : path ∈ g₀.places decls name) :
    ∃ r ∈ g₀.requestedFunctions.entries, r.1 = name := by
  obtain ⟨decl, -, hsighting⟩ := mem_places.mp h
  rw [sighting] at hsighting
  split at hsighting
  case isTrue hname =>
    rw [place] at hsighting
    split at hsighting
    case isTrue hcounts =>
      obtain ⟨sections, hfind⟩ := Option.isSome_iff_exists.mp hcounts.2
      exact ⟨_, OrderedMap.find_eq_some_iff.mp hfind, hname⟩
    case isFalse => cases hsighting
  case isFalse => cases hsighting

/-- The names of the fallbacks are in order already. -/
theorem names_filterMap_fallback (h : Scanned g₀ decls g)
    (hknown : ∀ path ∈ known, isLikelyHeaderPath path = true)
    (requested : List (Str × Finset Str)) :
    (requested.filterMap (g.fallback known)).map FallbackDeclOutput.functionName =
      (requested.filter fun r => NonHeaderOnly (g₀.places decls r.1)).map Prod.fst := by
  induction requested with
  | nil => rfl
  | cons r requested ih =>
      have hspec := fallback_spec h hknown r
      split at hspec
      case isTrue honly =>
        obtain ⟨decl, out, -, hname, hout, hfor⟩ := hspec
        rw [List.filterMap_cons_some hout, List.map_cons, ih, hfor.functionName, hname,
          List.filter_cons_of_pos (by simpa using honly), List.map_cons]
      case isFalse honly =>
        rw [List.filterMap_cons_none hspec, ih, List.filter_cons_of_neg (by simpa using honly)]

/-- What the first loop collects. -/
theorem Scanned.classified (h : Scanned g₀ decls g) :
    g.requestedFunctions.entries.foldl g.classify ⟨[], [], .empty, []⟩ =
      { missingFunctions :=
          (g₀.requestedFunctions.entries.filter fun r => g₀.places decls r.1 = ∅).map fun r =>
            describeFunction r ++ " missing".toList
        nonHeaderOnlyFunctions :=
          (g₀.requestedFunctions.entries.filter fun r =>
            NonHeaderOnly (g₀.places decls r.1)).map fun r => outsideLine (g₀.places decls r.1) r
        headerToFunctions := OrderedMap.group
          (g₀.requestedFunctions.entries.flatMap fun r => headerPairs (g₀.places decls r.1) r)
          .empty
        fallbackDecls := [] } := by
  rw [foldl_classify h.resolved_eq, h.requested]
  simp only [List.nil_append]

theorem Scanned.included (h : Scanned g₀ decls g) (path : Str) :
    path ∈ g.output.headerToFunctions.entries.map Prod.fst ↔
      isLikelyHeaderPath path = true ∧ ∃ name, path ∈ g₀.places decls name := by
  rw [output, h.classified]
  dsimp only
  rw [OrderedMap.mem_keys_group, OrderedMap.entries_empty, List.map_nil,
    or_iff_right List.not_mem_nil, mem_keys_headerPairs]
  refine and_congr_right fun _ => ⟨fun ⟨r, _, hr⟩ => ⟨r.1, hr⟩, fun ⟨name, hname⟩ => ?_⟩
  obtain ⟨r, hmem, rfl⟩ := exists_requested_of_mem_places hname
  exact ⟨r, hmem, hname⟩

theorem Scanned.isLikelyHeaderPath (h : Scanned g₀ decls g) :
    ∀ path ∈ (g.output.headerToFunctions.entries.map Prod.fst).toFinset,
      isLikelyHeaderPath path = true :=
  fun path hpath => ((h.included path).mp (List.mem_toFinset.mp hpath)).1

/-- The fallbacks are in the order of the requested functions. -/
theorem Scanned.fallbackDecls (h : Scanned g₀ decls g) :
    g.output.fallbackDecls = g₀.requestedFunctions.entries.filterMap
      (g.fallback (g.output.headerToFunctions.entries.map Prod.fst).toFinset) := by
  have hnames := names_filterMap_fallback h h.isLikelyHeaderPath g₀.requestedFunctions.entries
  have hsorted : (g₀.requestedFunctions.entries.map Prod.fst).Pairwise (· ≤ ·) :=
    List.pairwise_map.mpr (g₀.requestedFunctions.sorted.imp le_of_lt)
  have hpairwise : ((g₀.requestedFunctions.entries.filterMap (g.fallback
      (g.output.headerToFunctions.entries.map Prod.fst).toFinset)).map
        FallbackDeclOutput.functionName).Pairwise (· ≤ ·) := by
    rw [hnames]
    exact hsorted.sublist (List.filter_sublist.map Prod.fst)
  rw [List.pairwise_map, ← h.requested] at hpairwise
  rw [← h.requested]
  exact hpairwise.insertionSort_eq

theorem Scanned.dumped (h : Scanned g₀ decls g) : Dumped g₀ decls g.output := by
  refine ⟨?_, ?_, h.included, fun path hpath => ?_, ?_, fun fallback hmem => ?_⟩
  · rw [output, h.classified]
    exact List.perm_insertionSort _ _
  · rw [output, h.classified]
    exact List.perm_insertionSort _ _
  · rw [output, h.classified]
    dsimp only
    rw [OrderedMap.getD_find_group, OrderedMap.find_empty, Option.getD_none, List.nil_append,
      valuesOf_headerPairs hpath]
  · rw [h.fallbackDecls, names_filterMap_fallback h h.isLikelyHeaderPath]
  · rw [h.fallbackDecls, List.mem_filterMap] at hmem
    obtain ⟨r, -, hr⟩ := hmem
    have hspec := fallback_spec h h.isLikelyHeaderPath r
    split at hspec
    case isTrue =>
      obtain ⟨decl, out, hfind, hname, hout, hfor⟩ := hspec
      obtain rfl : out = fallback := Option.some.inj (hout.symm.trans hr)
      refine ⟨decl, ?_, hfor⟩
      rwa [hfor.functionName, hname]
    case isFalse => cases hspec.symm.trans hr

/-- The order of the declarations only decides which one a fallback is made of. -/
theorem run_of_perm {decls' : List FunctionDecl} (hresolved : g₀.resolvedFunctions = .empty)
    (hcaptured : g₀.capturedFunctions = .empty) (hperm : decls.Perm decls')
    (hfirst : ∀ name, decls.find? (g₀.outside name) = decls'.find? (g₀.outside name)) :
    g₀.run decls = g₀.run decls' := by
  have h := scanned_run g₀ hresolved hcaptured decls
  have h' := scanned_run g₀ hresolved hcaptured decls'
  have hplaces (name : Str) : g₀.places decls name = g₀.places decls' name :=
    List.toFinset_eq_of_perm _ _ (hperm.filterMap _)
  have hresolved : (g₀.run decls).resolvedFunctions = (g₀.run decls').resolvedFunctions :=
    OrderedMap.eq_of_find fun name => by rw [h.resolved, h'.resolved, hplaces]
  have hcaptured : (g₀.run decls).capturedFunctions = (g₀.run decls').capturedFunctions :=
    OrderedMap.eq_of_find fun name => by rw [h.captured, h'.captured, hfirst]
  exact GlobalContext.ext (h.initialCwd.trans h'.initialCwd.symm)
    (h.configPath.trans h'.configPath.symm) (h.requested.trans h'.requested.symm) hresolved
    hcaptured

/-- A dump says what has been found, in whichever order the declarations are met. -/
theorem dumped_run (initialCwd configPath : Str) (config : ConfigFile)
    (decls : List FunctionDecl) :
    let g₀ := loadRequestedFunctions initialCwd configPath config
    Dumped g₀ decls (g₀.run decls).output ∧
      ∀ decls' : List FunctionDecl, decls.Perm decls' →
        (∀ name, decls.find? (g₀.outside name) = decls'.find? (g₀.outside name)) →
          (g₀.run decls).buildOutput = (g₀.run decls').buildOutput := by
  intro g₀
  refine ⟨(scanned_run g₀ rfl rfl decls).dumped, fun decls' hperm hfirst => ?_⟩
  rw [run_of_perm rfl rfl hperm hfirst]

end Lorelei.TLC.Dump
